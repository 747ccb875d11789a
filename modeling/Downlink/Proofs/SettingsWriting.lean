import Downlink.Proofs.Digits
import Downlink.Settings.JsonView
import Downlink.Settings.YamlView

/-!
# Writing settings

Settings are put into nodes as they are taken out of them: by a few kinds of values, whatever a
node is in JSON or in YAML. A writer suits a view if the view gives back what the writer put in. The
writer of JSON suits its view (`suits_json`), and that of YAML suits the view of every document,
since what it writes holds no aliases (`suits_yaml`).

The members of a node are then read one by one: one that is left out reads as the default, and it
does not matter which others are left out (`optional_without`).
-/

namespace Downlink.Settings

variable {ν α : Type}

/-! ## Writers -/

/-- How values are put into nodes. -/
structure NodeWriter (ν : Type) where
  natural : Nat → ν
  boolean : Bool → ν
  text : String → ν
  items : List ν → ν
  /-- Values under their names. -/
  members : Members ν → ν
  /-- A choice that is a name alone. -/
  choice : String → ν
  /-- A choice with a number. -/
  choiceOf : String → Nat → ν

/-- The view gives back what the writer puts in. -/
structure NodeWriter.Suits (w : NodeWriter ν) (view : NodeView ν) : Prop where
  natural? : ∀ n, view.natural? (w.natural n) = some n
  boolean? : ∀ b, view.boolean? (w.boolean b) = some b
  text? : ∀ s, view.text? (w.text s) = some s
  items? : ∀ nodes, view.items? (w.items nodes) = some nodes
  entries? : ∀ declared m, view.entries? declared (w.members m) = some m
  presentMembers? : ∀ m, view.present? (w.members m) = some (some (w.members m))
  presentNatural? : ∀ n, view.present? (w.natural n) = some (some (w.natural n))
  choice? : ∀ name, view.choice? (w.choice name) = some (name, none)
  choiceOf? : ∀ name n, name ≠ "" →
    view.choice? (w.choiceOf name n) = some (name, some (w.natural n))

namespace NodeWriter

/-- Objects, arrays and literals; a choice with a number is an object with one name. -/
def json : NodeWriter Json where
  natural n := .int n
  boolean := .bool
  text := .string
  items := .array
  members := .object
  choice := .string
  choiceOf name n := .object [(name, .int n)]

theorem suits_json : json.Suits .json where
  natural? n := by
    show (if 0 ≤ (n : Int) then some (n : Int).toNat else none) = some n
    rw [if_pos (Int.natCast_nonneg n), Int.toNat_natCast]
  boolean? _ := rfl
  text? _ := rfl
  items? _ := rfl
  entries? _ _ := rfl
  presentMembers? _ := rfl
  presentNatural? _ := rfl
  choice? _ := rfl
  choiceOf? _ _ _ := rfl

open Yaml (Node Document)

/-- Mappings, sequences and scalars, of which texts are quoted; a choice with a number is the number
with the name as its tag. -/
def yaml : NodeWriter Node where
  natural n := .scalar none .plain (toString n)
  boolean b := .scalar none .plain (if b then "true" else "false")
  text s := .scalar none .doubleQuoted s
  items := .sequence none
  members m := .mapping none (m.map fun (name, node) => (.scalar none .plain name, node))
  choice name := .scalar none .plain name
  choiceOf name n := .scalar (some (.named ("!" ++ name))) .plain (toString n)

theorem tagName?_named {name : String} (h : name ≠ "") :
    tagName? (some (.named ("!" ++ name))) = some name := by
  have hlist : ("!" ++ name).toList = '!' :: name.toList := by
    rw [String.toList_append]
    rfl
  have hne : name.toList ≠ [] := by
    rwa [ne_eq, String.toList_eq_nil_iff]
  obtain ⟨c, cs, hcs⟩ := List.exists_cons_of_ne_nil hne
  rw [tagName?, hlist, hcs]
  show some (String.ofList (c :: cs)) = some name
  rw [← hcs, String.ofList_toList]

theorem suits_yaml (d : Document) : yaml.Suits (.yaml d) where
  natural? n := Yaml.natOfText?_toString n
  boolean? b := by cases b <;> rfl
  text? _ := rfl
  items? _ := rfl
  entries? _ m := by
    show (m.map fun (name, node) => (Node.scalar none .plain name, node)).mapM _ = some m
    induction m with
    | nil => rfl
    | cons entry rest ih =>
      rw [List.map_cons, List.mapM_cons, ih]
      rfl
  presentMembers? _ := rfl
  presentNatural? n := by
    obtain ⟨hne, hnull⟩ := Yaml.isNullText_toString n
    show presentNode? (.scalar none .plain (toString n)) = _
    simp only [presentNode?, hne, hnull, Bool.false_eq_true, or_self, if_false]
    rfl
  choice? _ := rfl
  choiceOf? name n h := by
    show choiceNode? (.scalar (some (.named ("!" ++ name))) .plain (toString n)) = _
    rw [choiceNode?, tagName?_named h]
    rfl

end NodeWriter

/-! ## Members -/

namespace Members

variable {m : Members ν} {name : String} {dropped : List String}

/-- Members without those of some names. -/
def without (m : Members ν) (dropped : List String) : Members ν :=
  m.filter (·.1 ∉ dropped)

theorem without_nil (m : Members ν) : m.without [] = m := by
  simp [without]

theorem map_fst_without_sublist (m : Members ν) (dropped : List String) :
    ((m.without dropped).map Prod.fst).Sublist (m.map Prod.fst) :=
  List.filter_sublist.map Prod.fst

theorem lookup_without (m : Members ν) (dropped : List String) (name : String) :
    (m.without dropped).lookup name = if name ∈ dropped then none else m.lookup name := by
  induction m with
  | nil => simp [without]
  | cons entry rest ih =>
    obtain ⟨other, node⟩ := entry
    rw [without] at ih ⊢
    by_cases hother : other ∈ dropped
    · rw [List.filter_cons_of_neg (by simpa using hother), ih, List.lookup_cons]
      rcases eq_or_ne name other with rfl | hname
      · rw [if_pos hother, if_pos hother]
      · rw [beq_false_of_ne hname]
    · rw [List.filter_cons_of_pos (by simpa using hother), List.lookup_cons, List.lookup_cons, ih]
      rcases eq_or_ne name other with rfl | hname
      · rw [beq_self_eq_true]
        exact (if_neg hother).symm
      · rw [beq_false_of_ne hname]

theorem optional_without (m : Members ν) (dropped : List String) (name : String) (default : α)
    (read : ν → Option α) :
    (m.without dropped).optional name default read =
      if name ∈ dropped then some default else m.optional name default read := by
  rw [optional, lookup_without, optional]
  by_cases h : name ∈ dropped
  · rw [if_pos h, if_pos h]
  · rw [if_neg h, if_neg h]

theorem optional_merged {default value : α} {read : ν → Option α} (dropped : List String)
    (h : m.optional name default read = some value) :
    (m.without dropped).optional name default read =
      some (if name ∈ dropped then default else value) := by
  rw [optional_without, h]
  split <;> rfl

theorem optional_without_eq {default value : α} {read : ν → Option α}
    (hdropped : name ∈ dropped → value = default) (h : m.optional name default read = some value) :
    (m.without dropped).optional name default read = some value := by
  rw [optional_without]
  split
  · next hmem => rw [hdropped hmem]
  · exact h

theorem required_without (h : name ∉ dropped) (m : Members ν) (read : ν → Option α) :
    (m.without dropped).required name read = m.required name read := by
  rw [required, lookup_without, if_neg h, required]

end Members

/-! ## Reading what was written -/

namespace NodeWriter.Suits

variable {w : NodeWriter ν} {view : NodeView ν}

theorem members? (hw : w.Suits view) (extras : Extras) {declared : List String} {m : Members ν}
    (hnodup : declared.Nodup) (hnames : (m.map Prod.fst).Sublist declared) :
    view.members? extras declared (w.members m) = some m := by
  have hknown : (m.map Prod.fst).filter (· ∈ declared) = m.map Prod.fst := by
    rw [List.filter_eq_self]
    intro name hname
    exact decide_eq_true (hnames.subset hname)
  simp [NodeView.members?, hw.entries?, hknown, hnodup.sublist hnames]

theorem members?_refused (hw : w.Suits view) {declared : List String} {m : Members ν}
    {name : String} (hmem : name ∈ m.map Prod.fst) (hname : name ∉ declared) :
    view.members? .refused declared (w.members m) = none := by
  have hknown : (m.map Prod.fst).filter (· ∈ declared) ≠ m.map Prod.fst := by
    intro heq
    rw [List.filter_eq_self] at heq
    exact hname (of_decide_eq_true (heq name hmem))
  simp [NodeView.members?, hw.entries?, hknown]

theorem below? (hw : w.Suits view) {n bound : Nat} (h : n < bound) :
    view.below? bound (w.natural n) = some n := by
  rw [NodeView.below?, hw.natural?, Option.bind_some, if_pos h]

theorem byte? (hw : w.Suits view) (b : UInt8) : view.byte? (w.natural b.toNat) = some b := by
  rw [NodeView.byte?, hw.below? b.toNat_lt, Option.map_some, UInt8.ofNat_toNat]

theorem word32?_of_lt (hw : w.Suits view) {n : Nat} (h : n < UInt32.size) :
    view.word32? (w.natural n) = some (UInt32.ofNat n) := by
  rw [NodeView.word32?, hw.below? h, Option.map_some]

theorem word32? (hw : w.Suits view) (n : UInt32) : view.word32? (w.natural n.toNat) = some n := by
  rw [hw.word32?_of_lt n.toNat_lt, UInt32.ofNat_toNat]

theorem word64?_of_lt (hw : w.Suits view) {n : Nat} (h : n < UInt64.size) :
    view.word64? (w.natural n) = some (UInt64.ofNat n) := by
  rw [NodeView.word64?, hw.below? h, Option.map_some]

theorem word64? (hw : w.Suits view) (n : UInt64) : view.word64? (w.natural n.toNat) = some n := by
  rw [hw.word64?_of_lt n.toNat_lt, UInt64.ofNat_toNat]

theorem listOf? (hw : w.Suits view) {read : ν → Option α} {nodes : List ν} {items : List α}
    (h : List.Forall₂ (fun item node => read node = some item) items nodes) :
    view.listOf? read (w.items nodes) = some items := by
  rw [NodeView.listOf?, hw.items?, Option.bind_some]
  induction h with
  | nil => rfl
  | cons hread _ ih =>
    rw [List.mapM_cons, hread, ih]
    rfl

theorem orNothing?_members (hw : w.Suits view) (read : ν → Option α) (m : Members ν) :
    view.orNothing? read (w.members m) = (read (w.members m)).map some := by
  rw [NodeView.orNothing?, hw.presentMembers?]
  rfl

theorem orNothing?_natural (hw : w.Suits view) (read : ν → Option α) (n : Nat) :
    view.orNothing? read (w.natural n) = (read (w.natural n)).map some := by
  rw [NodeView.orNothing?, hw.presentNatural?]
  rfl

end NodeWriter.Suits

end Downlink.Settings
