import BranchingTimeline.Proofs.Session.Agreement
import BranchingTimeline.Proofs.Session.Frame

namespace BranchingTimeline.Environment

open Step Compile Node

variable {σ ρ : Type}

theorem scope_not_mem_of_not_mem {nodes : List Node} (hd : (scopesIn nodes).Nodup) {n : Node}
    (hn : n ∈ flattenIn nodes) {p : Place} {l : LoopPlan} {inner : List Node}
    (hl : loop p l inner ∈ flattenIn nodes) (hout : loop p l inner ∉ flatten n) :
    l.scope ∉ scopesIn [n] := by
  intro hmem
  obtain ⟨m, hm, hscope⟩ := List.mem_filterMap.mp hmem
  rw [flattenIn_cons, flattenIn_nil, List.append_nil] at hm
  obtain rfl := eq_of_nodup_filterMap hd (flatten_subset_flattenIn hn hm) hl hscope rfl
  exact hout hm

/-- A node that runs changes the flags of no scope but its guard's and those of the loops in it,
and the former with its finish hook only. Of what other scopes hold it sees nothing. No two loops
share a scope, and none has that of the top level, whatever their ids. -/
theorem execute_isolated {settings : Settings} {items : List Item} {t : Timeline}
    (h : compile settings items = .ok t) {n : Node} (hn : n ∈ flattenIn t.nodes)
    (env : Environment σ ρ) (stimulus : Option Record) :
    (∀ s x, x ≠ n.guard.scope → x ∉ scopesIn [n] →
      (env.execute stimulus n s).2.context.flags x = s.context.flags x ∧
        (env.runNode stimulus n s).2.context.flags x = s.context.flags x) ∧
    (∀ s, (env.work stimulus n s).2.context.flags n.guard.scope = s.context.flags n.guard.scope) ∧
    (∀ s u, s.Alike (· = n.guard.scope) u →
      (env.execute stimulus n s).1 = (env.execute stimulus n u).1 ∧
        (env.execute stimulus n s).2.Alike (· = n.guard.scope) (env.execute stimulus n u).2) ∧
    (∀ p l inner, loop p l inner ∈ flattenIn t.nodes → loop p l inner ∉ flatten n →
      l.scope ∉ scopesIn [n]) ∧
    (scopesIn t.nodes).Nodup ∧ .root ∉ scopesIn t.nodes := by
  obtain ⟨around, index, later, item, hnode, hs⟩ := nodeOf_of_compile h hn
  have hscope := hnode.guard_scope
  refine ⟨?_, ?_, ?_, ?_, scopesIn_nodup h, root_not_mem_scopesIn (compiled_of_compile h)⟩
  · intro s x hx hin
    rw [hscope] at hx
    have hw : Keeps (flagsOf x) (env.work stimulus n) := keeps_work env hnode hin stimulus
    exact ⟨hw.andThen (keeps_conclude hnode.finish_local hx hin) s, keeps_runNode hnode hx hin hw s⟩
  · intro s
    rw [hscope]
    exact keeps_work env hnode hs stimulus s
  · intro s u hsu
    have hc : Couples (Session.Alike (· = n.guard.scope)) (Session.Alike (· = n.guard.scope))
        (Session.Alike (· = n.guard.scope)) (env.execute stimulus n) :=
      couples_execute hnode hscope.symm stimulus
    obtain ⟨hf, ha, -⟩ := hc s u hsu
    exact ⟨hf, ha⟩
  · intro p l inner hl hout
    exact scope_not_mem_of_not_mem (scopesIn_nodup h) hn hl hout

def twins : List Item :=
  [.loop (.plain ⟨"a.b"⟩) [.trial (.plain ⟨"x"⟩)], .loop (.plain ⟨"a_b"⟩) [.trial (.plain ⟨"x"⟩)]]

def twinTimeline : Timeline := (compile .default twins).toOption.getD ⟨[], .empty, []⟩

def firstTwin : Node :=
  loopNode .root 0 [⟨"a_b"⟩] (.plain ⟨"a.b"⟩) [.trial (.plain ⟨"x"⟩)] (.loop "a_b")
    [trialNode (.inside (.plain ⟨"a.b"⟩) (.loop "a_b") []) 0 [] (.plain ⟨"x"⟩)]

theorem execute_isolated_twins :
    compile .default twins = .ok twinTimeline ∧ firstTwin ∈ flattenIn twinTimeline.nodes ∧
      (silent.execute none firstTwin (start () ())).2.context.flags (.loop "a_b_2") = .clear ∧
      (silent.work none firstTwin (start () ())).2.context.flags .root = .clear := by
  have hc : compile .default twins = .ok twinTimeline := by cbv
  have hhead : twinTimeline.nodes.head? = some firstTwin := by cbv
  have hn : firstTwin ∈ flattenIn twinTimeline.nodes := mem_flattenIn (List.mem_of_mem_head? hhead)
  obtain ⟨hframe, hwork, -⟩ := execute_isolated hc hn silent none
  have hout : Scope.loop "a_b_2" ∉ scopesIn [firstTwin] := by decide
  exact ⟨hc, hn, (hframe (start () ()) (.loop "a_b_2") (by decide) hout).1, hwork (start () ())⟩

end BranchingTimeline.Environment
