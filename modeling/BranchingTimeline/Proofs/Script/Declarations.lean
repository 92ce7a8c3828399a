import BranchingTimeline.Proofs.Script.Legible

namespace BranchingTimeline

open Emit

namespace Variable

def read? (v : Variable) : Option String := if v.worded then some v.text else none

def Known (v : Variable) : Prop := v.Generated ∨ v = .rootScope ∨ v.worded = false

variable {v : Variable}

theorem Known.identifier (h : v.Known) (hw : v.worded = true) : isIdentifier v.text.toList = true := by
  rcases h with h | rfl | h
  · exact h.identifier.1
  · decide
  · exact absurd hw (Bool.eq_false_iff.mp h)

theorem read?_eq_some {w : String} : v.read? = some w ↔ v.worded = true ∧ v.text = w := by
  rw [read?]
  split <;> simp_all

theorem Known.begins (h : v.Known) (hw : v.worded = true) :
    v = .rootScope ∨ v.lead ∈ leads ∧ v.lead.toList <+: v.text.toList := by
  rcases h with h | rfl | h
  · refine .inr ⟨h.lead_mem, ?_⟩
    rw [h.text_eq, String.toList_append]
    exact List.prefix_append _ _
  · exact .inl rfl
  · exact absurd hw (Bool.eq_false_iff.mp h)

end Variable

namespace Emit

open Node Piece

/-- The words of a script that it does not declare: those of the language, of the runtime and of the
page around it. -/
def vocabulary : List String :=
  ["const", "var", "function", "return", "if", "else", "null", "1", "tlRootScope", "tlScope", "tlInstrument",
    "tlMaterialize", "tlItemGuard", "tlResetPass", "tlEnterLoop", "tlContinueLoop", "tlFinishLoop",
    "tlPendingJump", "tlClearJump", "jsPsychCallFunction", "jump", "push", "indexOf", "window", "location",
    "reload"]

theorem vocabulary_apart : ∀ w ∈ vocabulary, ∀ lead ∈ Variable.leads, ¬lead.toList <+: w.toList := by decide

theorem words_wording :
    ∀ s ∈ wording, (Piece.text s).isRemark = false → ∀ w ∈ words s.toList, w ∈ vocabulary := by
  decide +kernel

section Reading

variable {known : List Variable} {v : Variable} {w : String} {q : Piece} {l : Line}

theorem words_code_used (hv : v.Known) : words (Piece.used v).code = v.read?.toList := by
  rw [code, worded, render, Variable.read?]
  cases hw : v.worded with
  | false => rfl
  | true =>
      obtain ⟨hne, hchars⟩ := isWordChar_of_isIdentifier (hv.identifier hw)
      rw [if_pos rfl, if_pos rfl, words_of_all hchars hne, String.ofList_toList, Option.toList_some]

theorem Within.reads (h : Within known q) (hk : ∀ v ∈ known, v.Known) (hr : q.isRemark = false)
    (hw : w ∈ words q.code) : w ∈ vocabulary ∨ ∃ v, Line.usedBy q = some v ∧ v.read? = some w := by
  cases q with
  | text s => exact .inl (words_wording s h hr w hw)
  | declared v => cases h
  | used v =>
      rw [words_code_used (hk v h), Option.mem_toList] at hw
      exact .inr ⟨v, rfl, hw⟩
  | literal | source | comment => cases hw

theorem read?_ne_push (hv : v.Known) : v.read? ≠ some "push" := by
  intro hread
  obtain ⟨hworded, htext⟩ := Variable.read?_eq_some.mp hread
  rcases hv.begins hworded with rfl | ⟨hl, hp⟩
  · exact absurd htext (by decide)
  · rw [htext] at hp
    exact vocabulary_apart "push" (by decide) _ hl hp

theorem Within.appends (h : Within known q) (hk : ∀ v ∈ known, v.Known)
    (hw : "push" ∈ words q.code) : q.appends = true := by
  cases q with
  | text s => exact decide_eq_true hw
  | declared v => cases h
  | used v =>
      rw [words_code_used (hk v h), Option.mem_toList] at hw
      exact absurd hw (read?_ne_push (hk v h))
  | literal | source | comment => cases hw

theorem not_const_of_prefix {a r : List Char} (ha : ¬a <+: "const ".toList) (hc : ¬"const ".toList <+: a)
    (hp : a <+: r) : ¬"const ".toList <+: r := fun hr =>
  (List.prefix_or_prefix_of_prefix hp hr).elim ha hc

theorem Within.not_const (h : Within known q) (hk : ∀ v ∈ known, v.Known) (rest : List Char) :
    ¬"const ".toList <+: q.code ++ rest := by
  have hmark : ¬"const ".toList <+: '"' :: rest := by simp [List.cons_prefix_cons]
  have hwords : ∀ s ∈ wording, ¬s.toList <+: "const ".toList ∧ ¬"const ".toList <+: s.toList := by
    decide +kernel
  have hleads : ∀ s ∈ "tlRootScope" :: Variable.leads,
      ¬s.toList <+: "const ".toList ∧ ¬"const ".toList <+: s.toList := by decide
  cases q with
  | text s => exact not_const_of_prefix (hwords s h).1 (hwords s h).2 (List.prefix_append _ _)
  | declared v => cases h
  | used v =>
      rw [code, worded, render]
      cases hw : v.worded with
      | false => exact hmark
      | true =>
          have hlead : ∃ s ∈ "tlRootScope" :: Variable.leads, s.toList <+: v.text.toList := by
            rcases (hk v h).begins hw with rfl | ⟨hl, hp⟩
            · exact ⟨_, List.mem_cons_self, List.prefix_rfl⟩
            · exact ⟨_, List.mem_cons_of_mem _ hl, hp⟩
          obtain ⟨s, hs, hp⟩ := hlead
          rw [if_pos rfl]
          exact not_const_of_prefix (hleads s hs).1 (hleads s hs).2 (hp.trans (List.prefix_append _ _))
  | literal | source | comment => exact hmark

theorem afterConst?_of_within (h : ∀ p ∈ l.pieces, Within known p) (hk : ∀ v ∈ known, v.Known) :
    l.afterConst? = none := by
  rw [Line.afterConst?, if_neg]
  rw [List.isPrefixOf_iff_prefix, Line.code]
  cases hd : l.depth with
  | succ n => simp [Nat.mul_succ, List.replicate_succ, List.cons_prefix_cons]
  | zero =>
      cases hp : l.pieces with
      | nil => simp
      | cons p ps =>
          rw [hp, List.forall_mem_cons] at h
          rw [List.flatMap_cons]
          exact h.1.not_const hk _

theorem exists_of_isTimeline (h : q.isTimeline = true) : ∃ name, Line.usedBy q = some (.timeline name) := by
  cases q with
  | used v =>
      cases v with
      | timeline name => exact ⟨name, rfl⟩
      | rootScope | knownIds | scope | trial | node | loop => cases h
  | text | declared | literal | source | comment => cases h

theorem read_of_joins {p : Piece} {ps : List Piece} (hps : ∀ q ∈ ps, Within known q)
    (hk : ∀ v ∈ known, v.Known) (hj : p.joins ps = true) (hp : p.isTimeline = false) (hq : q ∈ ps)
    (hw : w ∈ words q.code) :
    (w ∈ vocabulary ∨ ∃ v ∈ ps.filterMap Line.usedBy, v.read? = some w) ∧
      (w = "push" → ∃ name, .timeline name ∈ ps.filterMap Line.usedBy) := by
  constructor
  · refine ((hps q hq).reads hk (not_isRemark_of_joins hj q hq) hw).imp_right fun ⟨v, hv, hread⟩ => ?_
    exact ⟨v, List.mem_filterMap.mpr ⟨q, hq, hv⟩, hread⟩
  · rintro rfl
    obtain ⟨r, hr, ht⟩ := exists_timeline_of_joins hj hq ((hps q hq).appends hk hw)
    obtain ⟨name, hname⟩ := exists_of_isTimeline ht
    rcases List.mem_cons.mp hr with rfl | hr
    · rw [hp] at ht
      cases ht
    · exact ⟨name, List.mem_filterMap.mpr ⟨r, hr, hname⟩⟩

/-- A written line is read as it was put together: it declares what its pieces declare, each of its words
is in the vocabulary or a name that a piece uses, and to append it uses a timeline. -/
theorem Written.read (h : Written known l) (hk : ∀ v ∈ known, v.Known) (hl : l.legible = true) :
    l.constant?.toList = l.declares.filterMap Variable.read? ∧
      ∀ w ∈ l.names, (w ∈ vocabulary ∨ ∃ v ∈ l.uses, v.read? = some w) ∧
        (w = "push" → ∃ name, .timeline name ∈ l.uses) := by
  rcases h with h | ⟨v, hv, ps, rfl, h⟩
  · have hafter := afterConst?_of_within h hk
    constructor
    · rw [Line.constant?, hafter, declares_of_within h]
      rfl
    · intro w hw
      obtain ⟨hj, q, hq, hw⟩ := Line.exists_words_of_mem_names hl hafter hw
      exact read_of_joins h hk hj rfl hq hw
  · have hj : (Piece.declared v).joins ps = true := by
      have hline := Line.joins_of_legible hl rfl
      simp only [joins, Bool.and_eq_true] at hline
      exact hline.2.2
    obtain ⟨hconst, hnames⟩ := Line.constant?_declaring (hk v hv).identifier hj
    rw [Line.declaring] at hconst hnames
    constructor
    · rw [hconst, declares_constant h]
      change v.read?.toList = [v].filterMap Variable.read?
      rw [List.filterMap_eq_flatMap_toList, List.flatMap_singleton]
    · intro w hw
      obtain ⟨q, hq, hw⟩ := hnames w hw
      have hread := read_of_joins h hk hj rfl hq hw
      exact hread

end Reading

section Script

variable {t : Timeline} {settings : Settings} {named : List (Node × String)}

theorem Naming.known (h : Naming t named) (settings : Settings) :
    ∀ v ∈ constants t named ++ [.rootScope, .timeline settings.timelineVar], v.Known := by
  simp only [List.forall_mem_append, List.forall_mem_cons]
  exact ⟨fun v hv => .inl (h.generated v hv), .inr (.inl rfl), .inr (.inr rfl), by simp⟩

end Script

end Emit

open Emit

end BranchingTimeline
