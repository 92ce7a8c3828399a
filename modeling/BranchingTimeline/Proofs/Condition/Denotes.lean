import BranchingTimeline.Condition.Codec
import BranchingTimeline.Proofs.Json.Layout

namespace BranchingTimeline

open Json

theorem ItemId.denotes (id : ItemId) : Denotes ItemId.ofJson id.toJson id where
  readable := rfl
  reads hl := by
    rw [ItemId.toJson, hl.str]
    rfl

theorem ItemId.denotes_option (o : Option ItemId) :
    Denotes (nullable ItemId.ofJson) (ofOption ItemId.toJson o) o :=
  denotes_nullable (fun id _ => id.denotes) fun _ _ => nofun

theorem ItemId.denotes_list (ids : List ItemId) :
    Denotes (listOf ItemId.ofJson) (ofList ItemId.toJson ids) ids :=
  denotes_listOf fun id _ => id.denotes

theorem IdSet.denotes (s : IdSet) : Denotes IdSet.ofJson s.toJson s where
  readable := (ItemId.denotes_list s.toList).readable
  reads hl := by
    rw [IdSet.toJson, IdSet.ofJson, (ItemId.denotes_list s.toList).reads hl]
    refine congrArg some (SortedMap.ofList_of_perm ?_)
    rw [IdSet.toList, SortedMap.keys, List.map_map]
    exact .of_eq (List.map_id _)

theorem Operator.ofText_symbol (o : Operator) : ofText o.symbol = o := by
  cases o <;> decide

theorem Operator.denotes (o : Operator) : Denotes Operator.ofJson o.toJson o where
  readable := rfl
  reads hl := by
    rw [Operator.toJson, hl.str]
    exact congrArg some o.ofText_symbol

namespace Rule

theorem denotes_value (s : String) : Denotes valueOfJson (.str s) s where
  readable := rfl
  reads hl := by
    rw [hl.str]
    rfl

theorem denotes (r : Rule) : Denotes Rule.ofJson r.toJson r where
  readable := by
    have ht := (ItemId.denotes_option r.trial).readable
    simp [toJson, ht, Operator.toJson]
  reads {f} hl := by
    have hs : slots shape (f r.toJson) = _ := hl.slots_record (by decide) (by simp [shape, Member.Fits])
    have hc := reads_omitted (o := r.component) (fun s _ => denotes_str s) (fun s _ => toStr_null s) hl
    rw [ofJson]
    exact reads_bind hs <| reads_bind ((ItemId.denotes_option r.trial).reads hl) <|
      reads_bind ((denotes_str r.column).reads hl) <| reads_bind ((denotes_str r.prop).reads hl) <|
      reads_bind hc <| reads_bind (r.op.denotes.reads hl) <| reads_bind ((denotes_value r.value).reads hl) rfl

end Rule

structure Effect.Denoted (ε : Type) [Effect ε] : Prop where
  apart : Member.Apart (.default "id" :: .default "rules" :: Effect.shape ε)
  fits (e : ε) : Member.Fits (Effect.shape ε) (Effect.write e)
  readable (e : ε) : ∀ x ∈ Effect.write e, ∀ j ∈ x.2, j.readable = true
  reads {f : Json → Json} (hl : Layout f) (e : ε) :
    Effect.read ((Effect.write e).map fun x => x.2.map f) = some e

theorem Effect.denoted_unit : Effect.Denoted Unit where
  apart := by decide
  fits _ := trivial
  readable _ := by simp [Effect.write]
  reads _ _ := rfl

theorem Effect.denoted_branchTo : Effect.Denoted BranchTo where
  apart := by decide
  fits b := by simp [Effect.shape, Effect.write, Member.Fits]
  readable b := by
    have ht := (ItemId.denotes_option b.target).readable
    have hp : ∀ r : Record, (ofRecord r).readable = true := fun r => (denotes_record r).readable
    simp [Effect.write, ht, hp]
  reads hl b := by
    have hp := reads_omitted (o := b.parameters) (fun r _ => denotes_record r) (fun r _ => toRecord_null r) hl
    exact reads_bind ((ItemId.denotes_option b.target).reads hl) <| reads_bind hp rfl

theorem Effect.denoted_jumpTo : Effect.Denoted JumpTo where
  apart := by decide
  fits j := by simp [Effect.shape, Effect.write, Member.Fits]
  readable j := by
    have ht := (ItemId.denotes_option j.target).readable
    simp [Effect.write, ht]
  reads hl j := reads_bind ((ItemId.denotes_option j.target).reads hl) rfl

theorem Effect.denoted_replace : Effect.Denoted Replace where
  apart := by decide
  fits r := by simp [Effect.shape, Effect.write, Member.Fits]
  readable r := by
    have hp := (denotes_record r.parameters).readable
    simp [Effect.write, hp]
  reads hl r := reads_bind ((denotes_record r.parameters).reads hl) rfl

namespace Condition

variable {ε : Type} [Effect ε]

theorem denotes (he : Effect.Denoted ε) (c : Condition ε) : Denotes Condition.ofJson c.toJson c where
  readable := by
    have hid := (denotes_int64 c.id).readable
    have hrules := (denotes_listOf fun r (_ : r ∈ c.rules) => r.denotes).readable
    simpa [toJson, hid, hrules] using he.readable c.effect
  reads {f} hl := by
    have hs : slots (.default "id" :: .default "rules" :: Effect.shape ε) (f c.toJson) = _ :=
      hl.slots_record he.apart (by simpa [Member.Fits] using he.fits c.effect)
    have hrules := denotes_listOf fun r (_ : r ∈ c.rules) => r.denotes
    rw [ofJson]
    exact reads_bind hs <| reads_bind ((denotes_int64 c.id).reads hl) <| reads_bind (hrules.reads hl) <|
      reads_bind (he.reads hl c.effect) rfl

theorem denotes_list (he : Effect.Denoted ε) (cs : List (Condition ε)) :
    Denotes Condition.listOfJson (Condition.listToJson cs) cs :=
  denotes_listOf fun c _ => c.denotes he

end Condition

end BranchingTimeline
