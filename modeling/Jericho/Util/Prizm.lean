import Mathlib.Data.List.AList
import Jericho.Library.Occurrence
import Jericho.Library.StdText

/-! The `prizm` string helpers the repository links against, and string maps. The
helpers are a parameter of the model; `Documented` is what their callers rely on. -/
namespace Jericho.Util
open StdText

/-- The separately built string library. -/
structure Prizm where
  tokenize : Bytes → Byte → List Bytes
  tokenizeStr : Bytes → Bytes → List Bytes
  erase : Bytes → Byte → Bytes

/-- Tokens are the non-empty pieces; `erase` removes every copy of a character. -/
structure Prizm.Documented (prizm : Prizm) : Prop where
  tokenize_eq : ∀ s c, prizm.tokenize s c = (s.splitOn c).filter (· ≠ [])
  tokenizeStr_eq : ∀ s d, d ≠ [] → prizm.tokenizeStr s d = Occurrence.tokens d s
  erase_eq : ∀ s c, prizm.erase s c = s.filter (· ≠ c)

/-- The library as documented. -/
def Prizm.reference : Prizm where
  tokenize s c := (s.splitOn c).filter (· ≠ [])
  tokenizeStr s d := Occurrence.tokens d s
  erase s c := s.filter (· ≠ c)

theorem Prizm.reference_documented : Prizm.reference.Documented :=
  ⟨fun _ _ => rfl, fun _ _ _ => rfl, fun _ _ => rfl⟩

/-- A `std::unordered_map` of strings, its entries in iteration order. -/
abbrev StrMap := AList (fun _ : Bytes => Bytes)

abbrev Field := Sigma (fun _ : Bytes => Bytes)

/-- Maps are compared by their entries. -/
instance : DecidableEq StrMap := fun m m' => decidable_of_iff (m.entries = m'.entries) AList.ext_iff.symm

/-- `operator[]` on a map that is read: a missing key is an empty string. -/
def StrMap.get (m : StrMap) (key : Bytes) : Bytes := (m.lookup key).getD []

/-- Assignments `m[key] = val` in list order. -/
def StrMap.assign (m : StrMap) (es : List Field) : StrMap := es.foldl (fun m e => m.insert e.1 e.2) m

/-- After a run of assignments a key holds its last value. -/
theorem StrMap.lookup_assign (m : StrMap) (es : List Field) (k : Bytes) :
    (StrMap.assign m es).lookup k = (es.reverse.dlookup k).or (m.lookup k) := by
  induction es generalizing m with
  | nil => simp [StrMap.assign]
  | cons e es ih =>
    have hstep : StrMap.assign m (e :: es) = StrMap.assign (m.insert e.1 e.2) es := rfl
    rw [hstep, ih, List.reverse_cons, List.dlookup_append, Option.or_assoc]
    congr 1
    by_cases hk : k = e.1
    · subst hk
      rw [AList.lookup_insert, List.dlookup_cons_eq]
      rfl
    · rw [AList.lookup_insert_ne hk, List.dlookup_cons_ne _ _ hk]
      rfl

theorem StrMap.dlookup_reverse_entries (m : StrMap) (k : Bytes) :
    m.entries.reverse.dlookup k = m.lookup k :=
  (List.perm_dlookup k m.nodupKeys (List.reverse_perm _).symm).symm

end Jericho.Util
