import BranchingTimeline.Proofs.Json.Layout
import BranchingTimeline.Proofs.Timeline.Loops
import BranchingTimeline.Script.Emit

namespace BranchingTimeline

namespace Line

def declaredBy : Piece → Option Variable
  | .declared v => some v
  | _ => none

def usedBy : Piece → Option Variable
  | .used v => some v
  | _ => none

def declares (l : Line) : List Variable := l.pieces.filterMap declaredBy

def uses (l : Line) : List Variable := l.pieces.filterMap usedBy

def declaredIn (ls : List Line) : List Variable := ls.flatMap declares

theorem declaredIn_append (ls rs : List Line) : declaredIn (ls ++ rs) = declaredIn ls ++ declaredIn rs :=
  List.flatMap_append

end Line

def FinishPlan.scopes (f : FinishPlan) : List Scope :=
  (f.branch.elim [] fun b => b.routes.values.filterMap fun
    | .scope s => some s
    | .jump => none) ++ f.escalateTo.toList

def Node.scopes (n : Node) : List Scope := n.guard.scope :: n.finish.scopes ++ n.inner?.toList

namespace Emit

open Node

/-- The fixed texts that a script is put together from after the runtime, apart from the keyword of
a declaration. -/
def wording : List String :=
  ["// ", "// loop ", " (", ")", "\x7b repeats: ", ", branch: ", "null", ", escalateTo: ", " \x7d",
    "\x7b branches: ", ", conditions: ", ", routes: \x7b ", ": ", ", ", " \x7d \x7d", "tlResetPass(",
    ");", "conditional_function: function () \x7b", "return tlItemGuard(", "\x7d,",
    "on_timeline_finish: function () \x7b", "\x7d", " = tlInstrument(", ", \x7b", "id: ", ",",
    "loopId: ", "scope: ", "overrides: ", "finish: ", "\x7d);", " = \x7b", "timeline: [", "],",
    "\x7d;", "timeline_variables: tlMaterialize(", "),", "repetitions: ", "randomize_order: ",
    "on_timeline_start: function () \x7b", "tlEnterLoop(", "loop_function: function () \x7b",
    "return tlContinueLoop(", "tlFinishLoop(", " = ", ";", " = tlScope(", " = [];", ".push(",
    "// Restart for a jump still pending at the end; drop jumps to unknown items.", ".push(\x7b",
    "type: jsPsychCallFunction,", "func: function () \x7b", "var jump = tlPendingJump();",
    "if (jump === null) return;", "if (", ".indexOf(jump) !== -1) \x7b",
    "window.location.reload();", "\x7d else \x7b", "tlClearJump();"]

/-- A part of a line that declares nothing and uses only some names. -/
def Within (known : List Variable) : Piece → Prop
  | .text s => s ∈ wording
  | .used v => v ∈ known
  | .declared _ => False
  | .literal _ | .source _ | .comment _ => True

section Within

variable {known known' : List Variable} {p : Piece}

@[simp] theorem within_text (s : String) : Within known (.text s) ↔ s ∈ wording := Iff.rfl

@[simp] theorem within_used (v : Variable) : Within known (.used v) ↔ v ∈ known := Iff.rfl

@[simp] theorem within_literal (j : Json) : Within known (.literal j) := trivial

@[simp] theorem within_source (s : String) : Within known (.source s) := trivial

@[simp] theorem within_comment (s : String) : Within known (.comment s) := trivial

@[simp] theorem within_idsLiteral (ids : IdSet) : Within known (idsLiteral ids) := trivial

@[simp] theorem within_scopePiece (s : Scope) : Within known (scopePiece s) ↔ .ofScope s ∈ known :=
  Iff.rfl

theorem Within.mono (h : Within known p) (hk : known ⊆ known') : Within known' p := by
  cases p with
  | used v => exact hk h
  | text | declared | literal | source | comment => exact h

theorem Within.declaredBy_eq (h : Within known p) : Line.declaredBy p = none := by
  cases p with
  | declared v => cases h
  | text | used | literal | source | comment => rfl

theorem Within.of_usedBy (h : Within known p) {v : Variable} (hv : Line.usedBy p = some v) :
    v ∈ known := by
  cases p with
  | used w =>
      cases hv
      exact h
  | text | declared | literal | source | comment => cases hv

end Within

/-- Lines that use only names known before, and the names that they declare, in their order. -/
inductive Scoped : List Variable → List Line → List Variable → Prop
  | nil {known} : Scoped known [] []
  | plain {known l r declared} (hl : ∀ p ∈ l.pieces, Within known p) (hr : Scoped known r declared) :
      Scoped known (l :: r) declared
  | constant {known v pieces r declared} (hl : ∀ p ∈ pieces, Within known p)
      (hr : Scoped (v :: known) r declared) :
      Scoped known (⟨0, .text "const " :: .declared v :: pieces⟩ :: r) (v :: declared)

section Scoped

variable {known known' declared declared' : List Variable} {ls rs : List Line}

theorem Scoped.mono (h : Scoped known ls declared) (hk : known ⊆ known') : Scoped known' ls declared := by
  induction h generalizing known' with
  | nil => exact .nil
  | plain hl _ ih => exact .plain (fun p hp => (hl p hp).mono hk) (ih hk)
  | constant hl _ ih =>
      exact .constant (fun p hp => (hl p hp).mono hk) (ih (List.cons_subset_cons _ hk))

theorem Scoped.append (h : Scoped known ls declared) (hr : Scoped (declared ++ known) rs declared') :
    Scoped known (ls ++ rs) (declared ++ declared') := by
  induction h with
  | nil => exact hr
  | plain hl _ ih => exact .plain hl (ih hr)
  | constant hl _ ih =>
      refine .constant hl (ih (hr.mono ?_))
      intro v hv
      simpa [or_left_comm] using hv

theorem scoped_of_within (h : ∀ l ∈ ls, ∀ p ∈ l.pieces, Within known p) : Scoped known ls [] := by
  induction ls with
  | nil => exact .nil
  | cons l ls ih =>
      rw [List.forall_mem_cons] at h
      exact .plain h.1 (ih h.2)

theorem Scoped.append_within (h : Scoped known ls declared)
    (hr : ∀ l ∈ rs, ∀ p ∈ l.pieces, Within (declared ++ known) p) : Scoped known (ls ++ rs) declared := by
  have happend := h.append (scoped_of_within hr)
  rwa [List.append_nil] at happend

theorem declares_of_within {l : Line} (h : ∀ p ∈ l.pieces, Within known p) : l.declares = [] :=
  List.filterMap_eq_nil_iff.mpr fun p hp => (h p hp).declaredBy_eq

theorem declares_constant {v : Variable} {pieces : List Piece} (h : ∀ p ∈ pieces, Within known p) :
    Line.declares ⟨0, .text "const " :: .declared v :: pieces⟩ = [v] := by
  have hnone : pieces.filterMap Line.declaredBy = [] :=
    List.filterMap_eq_nil_iff.mpr fun p hp => (h p hp).declaredBy_eq
  rw [Line.declares, List.filterMap_cons_none rfl,
    List.filterMap_cons_some (show Line.declaredBy (.declared v) = some v from rfl), hnone]

theorem Scoped.declaredIn_eq (h : Scoped known ls declared) : Line.declaredIn ls = declared := by
  induction h with
  | nil => rfl
  | plain hl _ ih =>
      rw [Line.declaredIn, List.flatMap_cons, declares_of_within hl]
      exact ih
  | constant hl _ ih =>
      rw [Line.declaredIn, List.flatMap_cons, declares_constant hl]
      exact congrArg (_ :: ·) ih

/-- What a line uses is known from the start or declared on an earlier line. -/
theorem Scoped.uses (h : Scoped known ls declared) {before after : List Line} {l : Line}
    (he : ls = before ++ l :: after) {v : Variable} (hv : v ∈ l.uses) :
    v ∈ known ∨ v ∈ Line.declaredIn before := by
  induction h generalizing before with
  | nil => simp at he
  | @plain known k r declared hl hr ih =>
      cases before with
      | nil =>
          obtain ⟨rfl, rfl⟩ := List.cons.inj he
          obtain ⟨p, hp, hpv⟩ := List.mem_filterMap.mp hv
          exact .inl ((hl p hp).of_usedBy hpv)
      | cons b before =>
          obtain ⟨rfl, hrest⟩ := List.cons.inj he
          rcases ih hrest with hk | hd
          · exact .inl hk
          · exact .inr (List.mem_append_right _ hd)
  | @constant known w pieces r declared hl hr ih =>
      cases before with
      | nil =>
          obtain ⟨rfl, rfl⟩ := List.cons.inj he
          obtain ⟨p, hp, hpv⟩ := List.mem_filterMap.mp hv
          simp only [List.mem_cons] at hp
          rcases hp with rfl | rfl | hp
          · cases hpv
          · cases hpv
          · exact .inl ((hl p hp).of_usedBy hpv)
      | cons b before =>
          obtain ⟨rfl, hrest⟩ := List.cons.inj he
          have hb : Line.declaredIn (⟨0, .text "const " :: .declared w :: pieces⟩ :: before) =
              w :: Line.declaredIn before := by
            rw [Line.declaredIn, List.flatMap_cons, declares_constant hl]
            rfl
          rw [hb, List.mem_cons]
          rcases ih hrest with hk | hd
          · rcases List.mem_cons.mp hk with rfl | hk
            · exact .inr (.inl rfl)
            · exact .inl hk
          · exact .inr (.inr hd)

end Scoped

section Pieces

variable {known : List Variable}

theorem mem_separated {separator : String} {parts : List (List Piece)} {p : Piece}
    (h : p ∈ separated separator parts) : p = .text separator ∨ ∃ part ∈ parts, p ∈ part := by
  fun_induction separated separator parts with
  | case1 => cases h
  | case2 part => exact .inr ⟨part, List.mem_cons_self, h⟩
  | case3 part parts _ ih =>
      rcases List.mem_append.mp h with h | h
      · exact .inr ⟨part, List.mem_cons_self, h⟩
      · rcases List.mem_cons.mp h with rfl | h
        · exact .inl rfl
        · rcases ih h with rfl | ⟨part', hp, h⟩
          · exact .inl rfl
          · exact .inr ⟨part', List.mem_cons_of_mem _ hp, h⟩

theorem within_separated {separator : String} {parts : List (List Piece)} (hs : separator ∈ wording)
    (h : ∀ part ∈ parts, ∀ p ∈ part, Within known p) :
    ∀ p ∈ separated separator parts, Within known p := by
  intro p hp
  rcases mem_separated hp with rfl | ⟨part, hpart, hp⟩
  · exact hs
  · exact h part hpart p hp

theorem within_routeEntries {b : BranchPlan}
    (h : ∀ s, .scope s ∈ b.routes.values → .ofScope s ∈ known) :
    ∀ part ∈ routeEntries b, ∀ p ∈ part, Within known p := by
  intro part hpart
  obtain ⟨⟨target, route⟩, he, hr⟩ := List.mem_filterMap.mp hpart
  cases route with
  | jump => cases hr
  | scope s =>
      cases hr
      simpa [wording] using h s (List.mem_map_of_mem he)

theorem within_branchPieces {b : BranchPlan} (h : ∀ s, .scope s ∈ b.routes.values → .ofScope s ∈ known) :
    ∀ p ∈ branchPieces b, Within known p := by
  have hcomma : ", " ∈ wording := by simp [wording]
  have hr := within_separated hcomma (within_routeEntries h)
  simp only [branchPieces, List.forall_mem_append, List.forall_mem_cons]
  refine ⟨⟨?_, hr⟩, ?_⟩ <;> simp [wording]

theorem within_finishPieces {f : FinishPlan} (h : ∀ s ∈ f.scopes, .ofScope s ∈ known) :
    ∀ p ∈ finishPieces f, Within known p := by
  simp only [FinishPlan.scopes, List.forall_mem_append] at h
  simp only [finishPieces, List.forall_mem_append]
  refine ⟨⟨by simp [wording], ?_⟩, ?_⟩
  · cases hb : f.branch with
    | none => simp [wording]
    | some b =>
        rw [hb] at h
        refine within_branchPieces fun s hs => h.1 s ?_
        exact List.mem_filterMap.mpr ⟨.scope s, hs, rfl⟩
  · cases he : f.escalateTo with
    | none => simp [wording]
    | some s => simpa [wording] using h.2 s (by simp [he])

theorem within_resetLine {s : Scope} (h : .ofScope s ∈ known) :
    ∀ p ∈ (resetLine s).pieces, Within known p := by
  simpa [resetLine, wording] using h

theorem within_guardLines {g : Guard} (h : .ofScope g.scope ∈ known) :
    ∀ l ∈ guardLines g, ∀ p ∈ l.pieces, Within known p := by
  simp only [guardLines, List.forall_mem_append, List.forall_mem_cons]
  refine ⟨⟨?_, ?_⟩, ?_⟩
  · simp [Line.ofText, wording]
  · split
    · simpa using within_resetLine h
    · simp
  · simpa [Line.ofText, wording] using h

theorem within_finishLines {p : Place} {own : List Line} (h : .ofScope p.guard.scope ∈ known)
    (ho : ∀ l ∈ own, ∀ p ∈ l.pieces, Within known p) :
    ∀ l ∈ finishLines p own, ∀ p ∈ l.pieces, Within known p := by
  simp only [finishLines, List.forall_mem_append, List.forall_mem_cons]
  refine ⟨⟨⟨?_, ho⟩, ?_⟩, ?_⟩
  · simp [Line.ofText, wording]
  · split
    · simpa using within_resetLine h
    · simp
  · simp [Line.ofText, wording]

theorem within_heading {label : String} (h : label ∈ wording) (name : String) (id : ItemId) :
    ∀ p ∈ (heading label name id).pieces, Within known p := by
  simpa [heading, wording] using h

theorem scoped_trialLines {p : Place} {t : TrialPlan} (name : String)
    (h : ∀ s ∈ (Node.trial p t).scopes, .ofScope s ∈ known) :
    Scoped known (trialLines p t name) [.trial name, .node name] := by
  have hscope : .ofScope p.guard.scope ∈ known := h _ (by simp [Node.scopes, Node.guard, Node.place])
  have hfinish : ∀ s ∈ t.finish.scopes, .ofScope s ∈ Variable.trial name :: known := fun s hs =>
    List.mem_cons_of_mem _ (h s (by simp [Node.scopes, Node.finish, hs]))
  have hguard : .ofScope p.guard.scope ∈ [Variable.trial name, .node name] ++ known := by
    simp [hscope]
  rw [trialLines, List.append_assoc, List.append_assoc]
  refine Scoped.append_within (.plain ?blank <| .plain ?title <| .constant ?trial <|
    .plain ?id <| .plain ?loop <| .plain ?scope <| .plain ?overrides <| .plain ?finish <|
    .plain ?closed <| .constant ?node <| .plain ?timeline .nil) ?rest
  case blank => simp [Line.blank]
  case title => exact within_heading (by simp [wording]) _ _
  case scope => simpa [wording] using Or.inr hscope
  case finish => exact List.forall_mem_cons.mpr ⟨by simp [wording], within_finishPieces hfinish⟩
  case rest =>
    rw [List.forall_mem_append, List.forall_mem_append]
    refine ⟨within_guardLines hguard, within_finishLines hguard (by simp), ?_⟩
    simp [Line.ofText, wording]
  all_goals simp [Line.ofText, wording]

theorem scoped_loopLines {p : Place} {l : LoopPlan} {items : List Node} (name : String)
    {children : List Variable} (h : ∀ s ∈ (Node.loop p l items).scopes, .ofScope s ∈ known)
    (hc : children ⊆ known) : Scoped known (loopLines p l name children) [.loop name] := by
  have hguard : .ofScope p.guard.scope ∈ [Variable.loop name] ++ known :=
    List.mem_cons_of_mem _ (h _ (by simp [Node.scopes, Node.guard, Node.place]))
  have hstate : .ofScope l.scope ∈ [Variable.loop name] ++ known :=
    List.mem_cons_of_mem _ (h _ (by simp [Node.scopes, Node.inner?]))
  have hfinish : ∀ s ∈ l.finish.scopes, .ofScope s ∈ [Variable.loop name] ++ known := fun s hs =>
    List.mem_cons_of_mem _ (h s (by simp [Node.scopes, Node.finish, hs]))
  have hchildren : ∀ part ∈ children.map fun v => [Piece.used v], ∀ q ∈ part,
      Within (Variable.loop name :: known) q := by
    intro part hpart
    obtain ⟨v, hv, rfl⟩ := List.mem_map.mp hpart
    simpa using Or.inr (hc hv)
  simp only [loopLines, List.append_assoc]
  refine Scoped.append_within (.plain ?blank <| .plain ?title <| .constant ?loop <|
    .plain ?timeline .nil) ?rest
  case blank => simp [Line.blank]
  case title => exact within_heading (by simp [wording]) _ _
  case loop => simp [wording]
  case timeline =>
    refine List.forall_mem_cons.mpr ⟨by simp [wording], List.forall_mem_append.mpr ⟨?_, by simp [wording]⟩⟩
    exact within_separated (by simp [wording]) hchildren
  case rest =>
    simp only [List.forall_mem_append]
    refine ⟨?stimuli, ?settings, within_guardLines hguard, ?hooks, within_finishLines hguard ?own, ?closed⟩
    case stimuli => split <;> simp [wording]
    case hooks => simpa [Line.ofText, wording] using hstate
    case own =>
      rw [List.forall_mem_singleton, List.forall_mem_append, List.forall_mem_append]
      exact ⟨by simpa [wording] using hstate, within_finishPieces hfinish, by simp [wording]⟩
    all_goals simp [Line.ofText, wording]

end Pieces

end Emit

end BranchingTimeline
