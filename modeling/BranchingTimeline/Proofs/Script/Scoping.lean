import BranchingTimeline.Proofs.Script.Blocks
import BranchingTimeline.Proofs.Timeline.Search

namespace BranchingTimeline

namespace Variable

def lead : Variable → String
  | rootScope | timeline _ => ""
  | knownIds => "TL_KNOWN_IDS"
  | scope _ => "tl_scope_"
  | trial _ => "trial_"
  | node _ => "node_"
  | loop _ => "loop_"

def given : Variable → String
  | rootScope | knownIds | timeline _ => ""
  | scope name | trial name | node name | loop name => name

/-- A name made up by the emitter: not that of the settings, nor one of the runtime. -/
def Generated : Variable → Prop
  | rootScope | timeline _ => False
  | knownIds => True
  | scope name | trial name | node name | loop name => Namer.IsWord name

def leads : List String := ["TL_KNOWN_IDS", "tl_scope_", "trial_", "node_", "loop_"]

/-- The words that are no identifiers, though they are spelled like one. -/
def reservedWords : List String :=
  ["arguments", "await", "break", "case", "catch", "class", "const", "continue", "debugger", "default",
    "delete", "do", "else", "enum", "eval", "export", "extends", "false", "finally", "for", "function",
    "if", "implements", "import", "in", "instanceof", "interface", "let", "new", "null", "package",
    "private", "protected", "public", "return", "static", "super", "switch", "this", "throw", "true",
    "try", "typeof", "var", "void", "while", "with", "yield"]

variable {v w : Variable}

theorem Generated.text_eq (h : v.Generated) : v.text = v.lead ++ v.given := by
  cases v with
  | rootScope | timeline name => cases h
  | knownIds => rfl
  | scope name | trial name | node name | loop name => rfl

theorem Generated.lead_mem (h : v.Generated) : v.lead ∈ leads := by
  cases v with
  | rootScope | timeline name => cases h
  | knownIds | scope name | trial name | node name | loop name => simp [lead, leads]

theorem lead_eq_of_begins :
    ∀ a ∈ leads, ∀ b ∈ leads, a.toList <+: b.toList → a = b := by decide

theorem Generated.eq_of_parts (hv : v.Generated) (hw : w.Generated) (hl : v.lead = w.lead)
    (hg : v.given = w.given) : v = w := by
  cases v <;> cases w <;> simp_all [lead, given, Generated]

/-- No lead begins another, so names that are spelled the same are the same. -/
theorem Generated.text_inj (hv : v.Generated) (hw : w.Generated) (h : v.text = w.text) : v = w := by
  rw [hv.text_eq, hw.text_eq] at h
  have hlist : v.lead.toList ++ v.given.toList = w.lead.toList ++ w.given.toList := by
    simpa using congrArg String.toList h
  have hlead : v.lead = w.lead := by
    rcases List.prefix_or_prefix_of_prefix ⟨_, hlist⟩ ⟨_, rfl⟩ with hp | hp
    · exact lead_eq_of_begins _ hv.lead_mem _ hw.lead_mem hp
    · exact (lead_eq_of_begins _ hw.lead_mem _ hv.lead_mem hp).symm
  rw [hlead] at h
  exact hv.eq_of_parts hw hlead ((String.append_right_inj _).mp h)

theorem Generated.given_word (h : v.Generated) :
    ∀ c ∈ v.given.toList, c.isAlphanum = true ∨ c = '_' := by
  cases v with
  | rootScope | timeline name => cases h
  | knownIds => simp [given]
  | scope name | trial name | node name | loop name => exact h.2

theorem isIdentifier_append {s r : List Char} (hs : Emit.isIdentifier s = true)
    (hr : ∀ c ∈ r, c.isAlphanum = true ∨ c = '_') : Emit.isIdentifier (s ++ r) = true := by
  cases s with
  | nil => cases hs
  | cons c s =>
      rw [Emit.isIdentifier, Bool.and_eq_true] at hs
      rw [List.cons_append, Emit.isIdentifier, Bool.and_eq_true, List.all_append, Bool.and_eq_true]
      refine ⟨hs.1, hs.2, List.all_eq_true.mpr fun c hc => ?_⟩
      rcases hr c hc with ha | rfl
      · rcases Bool.or_eq_true_iff.mp ha with h | h <;> simp [Emit.startsIdentifier, h]
      · rfl

theorem Generated.identifier (h : v.Generated) :
    Emit.isIdentifier v.text.toList = true ∧ v.text ∉ reservedWords := by
  have hleads : ∀ a ∈ leads, Emit.isIdentifier a.toList = true ∧ '_' ∈ a.toList := by decide
  have hwords : ∀ a ∈ reservedWords, '_' ∉ a.toList := by decide
  obtain ⟨hid, hmark⟩ := hleads _ h.lead_mem
  rw [h.text_eq, String.toList_append]
  refine ⟨isIdentifier_append hid h.given_word, fun hmem => hwords _ hmem ?_⟩
  rw [String.toList_append]
  exact List.mem_append_left _ hmark

end Variable

theorem FinishPlan.Local.eq_of_mem {f : FinishPlan} {scope s : Scope} {later : List ItemId}
    (h : f.Local scope later) (hs : s ∈ f.scopes) : s = scope := by
  rcases List.mem_append.mp hs with hs | hs
  · cases hb : f.branch with
    | none => simp [hb] at hs
    | some b =>
        rw [hb] at hs
        obtain ⟨route, hmem, hroute⟩ := List.mem_filterMap.mp hs
        cases route with
        | jump => cases hroute
        | scope s' =>
            cases hroute
            obtain ⟨⟨x, r⟩, he, rfl⟩ := List.mem_map.mp hmem
            have hget : b.routes.get? x = some (.scope s) :=
              SortedMap.lookup_eq_some b.routes.keys_nodup he
            exact (h.branches b hb x s (by rw [BranchPlan.routeFor, hget, Option.getD_some])).1
  · exact h.escalates s (by simpa using hs)

namespace Compile

open Node

/-- A compiled node uses the scope of the top level and those of loops in the same timeline. -/
theorem scopes_of_compile {settings : Settings} {items : List Item} {t : Timeline} {n : Node} {s : Scope}
    (h : compile settings items = .ok t) (hn : n ∈ flattenIn t.nodes) (hs : s ∈ n.scopes) :
    s = .root ∨ s ∈ scopesIn t.nodes := by
  have hown : n.guard.scope = .root ∨ n.guard.scope ∈ scopesIn t.nodes :=
    (compiled_of_compile h).scope_of_mem hn
  simp only [Node.scopes, List.cons_append, List.mem_cons, List.mem_append] at hs
  rcases hs with rfl | hs | hs
  · exact hown
  · obtain ⟨around, index, later, item, hnode, -⟩ := nodeOf_of_compile h hn
    rw [hnode.finish_local.eq_of_mem hs, ← hnode.guard_scope]
    exact hown
  · exact .inr (List.mem_filterMap.mpr ⟨n, hn, by simpa using hs⟩)

end Compile

namespace Emit

open Node

/-- Everything that the lines after the runtime declare for a timeline. -/
def constants (t : Timeline) (named : List (Node × String)) : List Variable :=
  .knownIds :: (scopesIn t.nodes).map .ofScope ++ constantsOf named

theorem node_constants_nodup (name : String) (n : Node) : (n.constants name).Nodup := by
  cases n <;> simp [Node.constants]

theorem given_of_mem_constants {name : String} {n : Node} {v : Variable} (h : v ∈ n.constants name) :
    v.given = name ∧ ∀ s, v ≠ .ofScope s := by
  cases n with
  | trial =>
      simp only [Node.constants, List.mem_cons, List.not_mem_nil, or_false] at h
      rcases h with rfl | rfl
      · exact ⟨rfl, fun s => by cases s <;> simp [Variable.ofScope]⟩
      · exact ⟨rfl, fun s => by cases s <;> simp [Variable.ofScope]⟩
  | loop =>
      obtain rfl := List.mem_singleton.mp h
      exact ⟨rfl, fun s => by cases s <;> simp [Variable.ofScope]⟩

theorem generated_of_mem_constants {name : String} {n : Node} {v : Variable} (hw : Namer.IsWord name)
    (h : v ∈ n.constants name) : v.Generated := by
  cases n with
  | trial =>
      simp only [Node.constants, List.mem_cons, List.not_mem_nil, or_false] at h
      rcases h with rfl | rfl <;> exact hw
  | loop =>
      obtain rfl := List.mem_singleton.mp h
      exact hw

theorem constantsOf_nodup {named : List (Node × String)} (h : (named.map Prod.snd).Nodup) :
    (constantsOf named).Nodup := by
  refine List.nodup_flatMap.mpr ⟨fun e _ => node_constants_nodup e.2 e.1, ?_⟩
  refine (List.pairwise_map.mp h).imp fun {e e'} hne v hv hv' => hne ?_
  rw [← (given_of_mem_constants hv).1, ← (given_of_mem_constants hv').1]

theorem constants_generated {t : Timeline} {named : List (Node × String)} {names : List String}
    (hs : scopesIn t.nodes = names.map Scope.loop) (hn : ∀ name ∈ names, Namer.IsWord name)
    (hw : ∀ name ∈ named.map Prod.snd, Namer.IsWord name) : ∀ v ∈ constants t named, v.Generated := by
  intro v hv
  simp only [constants, List.cons_append, List.mem_cons, List.mem_append] at hv
  rcases hv with rfl | hv | hv
  · exact trivial
  · rw [hs, List.map_map] at hv
    obtain ⟨name, hname, rfl⟩ := List.mem_map.mp hv
    exact hn name hname
  · obtain ⟨e, he, hv⟩ := List.mem_flatMap.mp hv
    exact generated_of_mem_constants (hw _ (List.mem_map_of_mem he)) hv

theorem nodup_constants {t : Timeline} {named : List (Node × String)} {names : List String}
    (hs : scopesIn t.nodes = names.map Scope.loop) (hn : names.Nodup)
    (hd : (named.map Prod.snd).Nodup) : (constants t named).Nodup := by
  have hscopes : ((scopesIn t.nodes).map Variable.ofScope).Nodup := by
    rw [hs, List.map_map]
    exact hn.map fun _ _ h => Variable.scope.inj h
  have hrest : ∀ v ∈ constantsOf named, v ≠ .knownIds ∧ ∀ s, v ≠ .ofScope s := by
    intro v hv
    obtain ⟨e, -, hv⟩ := List.mem_flatMap.mp hv
    refine ⟨?_, (given_of_mem_constants hv).2⟩
    rintro rfl
    cases he : e.1 <;> simp [he, Node.constants] at hv
  rw [constants, List.cons_append, List.nodup_cons, List.mem_append, List.nodup_append]
  refine ⟨?_, hscopes, constantsOf_nodup hd, ?_⟩
  · rintro (hv | hv)
    · obtain ⟨s, -, hs⟩ := List.mem_map.mp hv
      cases s <;> cases hs
    · exact (hrest _ hv).1 rfl
  · intro v hv w hw he
    obtain ⟨s, -, rfl⟩ := List.mem_map.mp hv
    exact (hrest w hw).2 s he.symm

theorem map_fst_loopsIn (nodes : List Node) : (loopsIn nodes).map Prod.fst = scopesIn nodes := by
  induction nodes using forest_induction with
  | nil => simp [loopsIn]
  | trial p t r ih => simpa [loopsIn, loopsOf] using ih
  | loop p l items r ihItems ih => simp [loopsIn, loopsOf, ihItems, ih]

def pushLine (settings : Settings) (v : Variable) : Line :=
  ⟨0, [.used (.timeline settings.timelineVar), .text ".push(", .used v, .text ");"]⟩

section Scoped

variable {known : List Variable}

theorem scoped_scopeLines (loops : List (Scope × ItemId)) :
    Scoped known (loops.map scopeLine) ((loops.map Prod.fst).map .ofScope) := by
  induction loops generalizing known with
  | nil => exact .nil
  | cons l loops ih => exact .constant (by simp [wording]) ih

theorem scoped_declarations (t : Timeline) :
    Scoped known (declarations t) (.knownIds :: (scopesIn t.nodes).map .ofScope) := by
  rw [← map_fst_loopsIn]
  exact .constant (by simp [wording]) (scoped_scopeLines _)

theorem within_pushLine {settings : Settings} {v : Variable} (ht : .timeline settings.timelineVar ∈ known)
    (hv : v ∈ known) : ∀ p ∈ (pushLine settings v).pieces, Within known p := by
  simp [pushLine, wording, ht, hv]

def ownTimeline (settings : Settings) : List Variable :=
  if settings.declareTimeline then [.timeline settings.timelineVar] else []

theorem scoped_pushLines {settings : Settings} {roots : List Variable}
    (ht : .timeline settings.timelineVar ∈ known) (hr : roots ⊆ known) :
    Scoped known (pushLines settings roots) (ownTimeline settings) := by
  have hpush : ∀ l ∈ roots.map (pushLine settings), ∀ p ∈ l.pieces, Within known p := by
    intro l hl
    obtain ⟨v, hv, rfl⟩ := List.mem_map.mp hl
    exact within_pushLine ht (hr hv)
  rw [pushLines, List.cons_append]
  refine .plain (by simp [Line.blank]) (Scoped.append_within ?_ ?_)
  · rw [ownTimeline]
    split
    · exact .constant (by simp [wording]) .nil
    · exact .nil
  · exact fun l hl p hp => (hpush l hl p hp).mono (List.subset_append_right _ _)

theorem within_reloadLines {timeline : Variable} (ht : timeline ∈ known) (hk : .knownIds ∈ known) :
    ∀ l ∈ reloadLines timeline, ∀ p ∈ l.pieces, Within known p := by
  simp [reloadLines, Line.blank, Line.ofText, wording, ht, hk]

end Scoped

/-- A line whose fixed texts are all in the wording of scripts, and which uses only known names; a
declaration has the name right after its keyword. -/
def Written (known : List Variable) (l : Line) : Prop :=
  (∀ p ∈ l.pieces, Within known p) ∨
    ∃ v ∈ known, ∃ pieces, l = ⟨0, .text "const " :: .declared v :: pieces⟩ ∧
      ∀ p ∈ pieces, Within known p

theorem Written.mono {known known' : List Variable} {l : Line} (h : Written known l)
    (hk : known ⊆ known') : Written known' l := by
  rcases h with h | ⟨v, hv, pieces, he, h⟩
  · exact .inl fun p hp => (h p hp).mono hk
  · exact .inr ⟨v, hk hv, pieces, he, fun p hp => (h p hp).mono hk⟩

theorem Written.uses {known : List Variable} {l : Line} (h : Written known l) : l.uses ⊆ known := by
  intro v hv
  obtain ⟨p, hp, hpv⟩ := List.mem_filterMap.mp hv
  rcases h with h | ⟨w, -, pieces, rfl, h⟩
  · exact (h p hp).of_usedBy hpv
  · simp only [List.mem_cons] at hp
    rcases hp with rfl | rfl | hp
    · cases hpv
    · cases hpv
    · exact (h p hp).of_usedBy hpv

theorem Scoped.written {known declared : List Variable} {ls : List Line} (h : Scoped known ls declared) :
    ∀ l ∈ ls, Written (declared ++ known) l := by
  induction h with
  | nil => simp
  | plain hl _ ih =>
      refine List.forall_mem_cons.mpr ⟨.inl fun p hp => (hl p hp).mono ?_, ih⟩
      exact List.subset_append_right _ _
  | @constant known v pieces r declared hl _ ih =>
      have hsub : declared ++ v :: known ⊆ v :: declared ++ known := by
        intro w hw
        simpa [or_left_comm] using hw
      have hpieces : ∀ p ∈ pieces, Within (v :: declared ++ known) p := fun p hp =>
        (hl p hp).mono (List.subset_append_right _ _)
      refine List.forall_mem_cons.mpr ⟨.inr ⟨v, by simp, pieces, rfl, hpieces⟩, ?_⟩
      exact fun l hl => (ih l hl).mono hsub

section Script

variable {t : Timeline} {settings : Settings} {named : List (Node × String)} {roots : List Variable}
  {lines : List Line}

theorem declaredIn_preludeLines : Line.declaredIn (preludeLines settings) = [] := by
  refine List.flatMap_eq_nil_iff.mpr fun l hl => ?_
  rcases List.mem_append.mp hl with hl | hl
  · obtain ⟨s, -, rfl⟩ := List.mem_map.mp hl
    rfl
  · obtain rfl := List.mem_singleton.mp hl
    rfl

def body (t : Timeline) (settings : Settings) : List Line :=
  declarations t ++ (Emit.nodes .start t.nodes).1 ++
    (pushLines settings (Emit.nodes .start t.nodes).2.1 ++
      if settings.emitReloadGuard then reloadLines (.timeline settings.timelineVar) else [])

theorem script_eq (t : Timeline) (settings : Settings) :
    script t settings = preludeLines settings ++ body t settings := by
  simp only [script, body, List.append_assoc]

theorem scoped_nodes (hs : ∀ n ∈ flattenIn t.nodes, ∀ s ∈ n.scopes, s = .root ∨ s ∈ scopesIn t.nodes)
    (he : Emitted t.nodes lines roots named) :
    Scoped [.rootScope] (declarations t ++ lines) (constants t named) := by
  refine (scoped_declarations t).append (he.scoped fun n hn s hmem => ?_)
  rcases hs n hn s hmem with rfl | hmem
  · simp [Variable.ofScope]
  · exact List.mem_append_left _ (List.mem_cons_of_mem _ (List.mem_map_of_mem hmem))

/-- `named` has the names under which the lines for a timeline declare its nodes: with those, they
declare generated names only, each of them once, and no line uses a name before its declaration. -/
structure Naming (t : Timeline) (named : List (Node × String)) : Prop where
  emitted : Emitted t.nodes (Emit.nodes .start t.nodes).1 (Emit.nodes .start t.nodes).2.1 named
  generated : ∀ v ∈ constants t named, v.Generated
  nodup : (constants t named).Nodup
  lines_scoped : Scoped [.rootScope] (declarations t ++ (Emit.nodes .start t.nodes).1) (constants t named)

theorem exists_naming {settings : Settings} {items : List Item} (h : compile settings items = .ok t) :
    ∃ named, Naming t named := by
  obtain ⟨m, hm, hscopes⟩ := Compile.scopesIn_named h
  obtain ⟨named, hnamed, hused, hsound⟩ := emitted_nodes .start t.nodes
  have hnames := hsound Namer.sound_start
  have hsnd : (named.map Prod.snd).Nodup := by
    have hd := hnames.nodup
    rw [hused] at hd
    simpa [Namer.start] using hd
  have hwords : ∀ name ∈ named.map Prod.snd, Namer.IsWord name := by
    intro name hname
    refine hnames.words name ?_
    rw [hused]
    exact List.mem_append_left _ (List.mem_reverse.mpr hname)
  refine ⟨named, hnamed, ?_, ?_, ?_⟩
  · exact constants_generated hscopes (fun name hn => hm.words name (List.mem_reverse.mp hn)) hwords
  · exact nodup_constants hscopes (List.nodup_reverse.mpr hm.nodup) hsnd
  · exact scoped_nodes (fun n hn s => Compile.scopes_of_compile h hn) hnamed

theorem Naming.scoped_body (h : Naming t named) (settings : Settings) :
    Scoped [.rootScope, .timeline settings.timelineVar] (body t settings)
      (constants t named ++ ownTimeline settings) := by
  have hroots : (Emit.nodes .start t.nodes).2.1 ⊆ constants t named :=
    List.subset_append_of_subset_right _ h.emitted.holders_subset
  refine (h.lines_scoped.mono (by simp)).append (Scoped.append_within ?_ ?_)
  · exact scoped_pushLines (by simp) (List.subset_append_of_subset_left _ hroots)
  · split
    · refine within_reloadLines (by simp) ?_
      exact List.mem_append_right _ (List.mem_append_left _ List.mem_cons_self)
    · simp

theorem Naming.written_body (h : Naming t named) (settings : Settings) :
    ∀ l ∈ body t settings,
      Written (constants t named ++ [.rootScope, .timeline settings.timelineVar]) l := by
  refine fun l hl => ((h.scoped_body settings).written l hl).mono ?_
  refine List.append_subset.mpr ⟨List.append_subset.mpr ⟨List.subset_append_left _ _, ?_⟩,
    List.subset_append_right _ _⟩
  rw [ownTimeline]
  split <;> simp

theorem mem_script_of_block {n : Node} (hn : n ∈ flattenIn t.nodes) (settings : Settings) {l : Line}
    (hl : ∀ name children, l ∈ block name children n) : l ∈ script t settings := by
  obtain ⟨named, hnamed, -, -⟩ := emitted_nodes .start t.nodes
  obtain ⟨⟨m, name⟩, hm, rfl⟩ := List.mem_map.mp (hnamed.perm.mem_iff.mpr hn)
  obtain ⟨children, -, hblock⟩ := hnamed.block_infix hm
  have hnodes : l ∈ (Emit.nodes .start t.nodes).1 := hblock.subset (hl name children)
  rw [script_eq, body]
  simp [hnodes]

end Script

end Emit

open Emit Node

theorem Timeline.emitLines_ok {t : Timeline} {settings : Settings} {lines : List Line}
    (h : t.emitLines settings = .ok lines) :
    checkPath "timeline_var" settings.timelineVar = .ok () ∧
      checkPath "participant_global" settings.participantGlobal = .ok () ∧ lines = script t settings := by
  rw [Timeline.emitLines] at h
  cases ht : checkPath "timeline_var" settings.timelineVar with
  | error e =>
      rw [ht] at h
      cases h
  | ok u =>
      cases hp : checkPath "participant_global" settings.participantGlobal with
      | error e =>
          rw [ht, hp] at h
          cases h
      | ok u =>
          rw [ht, hp] at h
          exact ⟨rfl, rfl, (Except.ok.inj h).symm⟩

theorem Timeline.emit_ok {t : Timeline} {settings : Settings} {text : String}
    (h : t.emit settings = .ok text) :
    t.emitLines settings = .ok (script t settings) ∧ text = Line.renderAll (script t settings) := by
  rw [Timeline.emit] at h
  cases he : t.emitLines settings with
  | error e =>
      rw [he] at h
      cases h
  | ok lines =>
      rw [he] at h
      obtain ⟨-, -, rfl⟩ := t.emitLines_ok he
      exact ⟨rfl, (Except.ok.inj h).symm⟩

theorem Timeline.emit_of_paths (t : Timeline) {settings : Settings}
    (ht : checkPath "timeline_var" settings.timelineVar = .ok ())
    (hp : checkPath "participant_global" settings.participantGlobal = .ok ()) :
    t.emit settings = .ok (Line.renderAll (script t settings)) := by
  rw [Timeline.emit, Timeline.emitLines, ht, hp]
  rfl

end BranchingTimeline
