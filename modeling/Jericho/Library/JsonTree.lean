import Mathlib.Data.Rat.Defs
import Mathlib.Data.List.Pairwise

/-! JSON values over a type of texts. The fields of an object stand in the order of their keys,
as a map would keep them. -/
namespace JsonTree

inductive Json (α : Type) where
  | null
  | bool (b : Bool)
  | number (n : ℚ)
  | string (s : α)
  | array (elements : List (Json α))
  | object (fields : List (α × Json α))

namespace Json
variable {α : Type}

def text? : Json α → Option α
  | .string s => some s
  | _ => none

def elements? : Json α → Option (List (Json α))
  | .array elements => some elements
  | _ => none

def fields? : Json α → Option (List (α × Json α))
  | .object fields => some fields
  | _ => none

/-- Induction over the parts of a value. -/
theorem induction {P : Json α → Prop} (null : P .null) (bool : ∀ b, P (.bool b)) (number : ∀ n, P (.number n))
    (string : ∀ s, P (.string s)) (array : ∀ elements, (∀ v ∈ elements, P v) → P (.array elements))
    (object : ∀ fields, (∀ f ∈ fields, P f.2) → P (.object fields)) (v : Json α) : P v := by
  refine Json.rec (motive_1 := P) (motive_2 := fun vs => ∀ v ∈ vs, P v) (motive_3 := fun fs => ∀ f ∈ fs, P f.2)
    (motive_4 := fun f => P f.2) null bool number string array object ?_ ?_ ?_ ?_ ?_ v
  · exact fun v hv => absurd hv List.not_mem_nil
  · exact fun v vs hv hvs => List.forall_mem_cons.mpr ⟨hv, hvs⟩
  · exact fun f hf => absurd hf List.not_mem_nil
  · exact fun f fs hf hfs => List.forall_mem_cons.mpr ⟨hf, hfs⟩
  · exact fun _ _ hv => hv

mutual

/-- The numbers of a value. -/
def numbers : Json α → List ℚ
  | .number n => [n]
  | .array elements => elementsNumbers elements
  | .object fields => fieldsNumbers fields
  | _ => []

def elementsNumbers : List (Json α) → List ℚ
  | [] => []
  | v :: vs => v.numbers ++ elementsNumbers vs

def fieldsNumbers : List (α × Json α) → List ℚ
  | [] => []
  | f :: fs => f.2.numbers ++ fieldsNumbers fs

end

theorem mem_elementsNumbers {n : ℚ} {elements : List (Json α)} :
    n ∈ elementsNumbers elements ↔ ∃ v ∈ elements, n ∈ v.numbers := by
  induction elements with
  | nil => simp [elementsNumbers]
  | cons v vs ih => simp [elementsNumbers, ih]

theorem mem_fieldsNumbers {n : ℚ} {fields : List (α × Json α)} :
    n ∈ fieldsNumbers fields ↔ ∃ f ∈ fields, n ∈ f.2.numbers := by
  induction fields with
  | nil => simp [fieldsNumbers]
  | cons f fs ih => simp only [fieldsNumbers, List.mem_append, ih, List.mem_cons, exists_eq_or_imp]

section Ordered
variable [LT α] [DecidableLT α]

mutual

/-- Every object of the value has its keys in ascending order. -/
def ordered : Json α → Bool
  | .array elements => elementsOrdered elements
  | .object fields => decide ((fields.map Prod.fst).Pairwise (· < ·)) && fieldsOrdered fields
  | _ => true

def elementsOrdered : List (Json α) → Bool
  | [] => true
  | v :: vs => v.ordered && elementsOrdered vs

def fieldsOrdered : List (α × Json α) → Bool
  | [] => true
  | f :: fs => f.2.ordered && fieldsOrdered fs

end

theorem fieldsOrdered_iff {fields : List (α × Json α)} :
    fieldsOrdered fields = true ↔ ∀ f ∈ fields, f.2.ordered = true := by
  induction fields with
  | nil => simp [fieldsOrdered]
  | cons f fs ih => rw [fieldsOrdered, Bool.and_eq_true, ih, List.forall_mem_cons]

theorem elementsOrdered_iff {elements : List (Json α)} :
    elementsOrdered elements = true ↔ ∀ v ∈ elements, v.ordered = true := by
  induction elements with
  | nil => simp [elementsOrdered]
  | cons v vs ih => rw [elementsOrdered, Bool.and_eq_true, ih, List.forall_mem_cons]

theorem ordered_array {elements : List (Json α)} :
    (Json.array elements).ordered = true ↔ ∀ v ∈ elements, v.ordered = true := by
  rw [ordered, elementsOrdered_iff]

theorem ordered_object {fields : List (α × Json α)} :
    (Json.object fields).ordered = true ↔
      (fields.map Prod.fst).Pairwise (· < ·) ∧ ∀ f ∈ fields, f.2.ordered = true := by
  rw [ordered, Bool.and_eq_true, decide_eq_true_iff, fieldsOrdered_iff]

/-- No key of an object stands twice. -/
theorem nodup_keys [Std.Irrefl (fun a b : α => a < b)] {v : Json α} (h : v.ordered = true)
    {fields : List (α × Json α)} (hv : v.fields? = some fields) : (fields.map Prod.fst).Nodup := by
  cases v with
  | object fs =>
    obtain rfl := Option.some.inj hv
    refine (ordered_object.mp h).1.imp ?_
    intro a b hlt heq
    rw [heq] at hlt
    exact Std.Irrefl.irrefl b hlt
  | _ => cases hv

theorem ordered_of_lookup [BEq α] [LawfulBEq α] {v : Json α} (h : v.ordered = true) {fields : List (α × Json α)}
    (hv : v.fields? = some fields) {key : α} {w : Json α} (hw : fields.lookup key = some w) : w.ordered = true := by
  cases v with
  | object fs =>
    obtain rfl := Option.some.inj hv
    obtain ⟨before, after, hsplit, -⟩ := List.lookup_eq_some_iff.mp hw
    exact (ordered_object.mp h).2 (key, w) (hsplit ▸ List.mem_append_right _ List.mem_cons_self)
  | _ => cases hv

end Ordered
end Json

/-- A value as a map-based reader holds it. -/
structure Document (α : Type) [LT α] [DecidableLT α] where
  value : Json α
  ordered : value.ordered = true

end JsonTree
