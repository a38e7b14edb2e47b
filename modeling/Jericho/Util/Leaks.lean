import Jericho.Util.SubstrOrder
import Jericho.Util.Trace

/-! The list of traced names spells a sorted tally, as far as the counters go. -/
namespace Jericho.Util
open StdText Heap Tally

/-- A call returns under a condition and only then, and what it returns is as described. -/
structure Returns {α : Type} (x : Exec α) (P : Prop) (Q : α → Prop) : Prop where
  ok : P → ∃ a, x = .ok a ∧ Q a
  only : ∀ a, x = .ok a → P

namespace Returns
variable {α β : Type} {x : Exec α} {P P' : Prop} {Q Q' : α → Prop}

theorem of_ok {a : α} (hx : x = .ok a) (hp : P) (hq : Q a) : Returns x P Q := ⟨fun _ => ⟨a, hx, hq⟩, fun _ _ => hp⟩

theorem of_error {fault : Fault} (hx : x = .error fault) (hp : ¬ P) : Returns x P Q := by
  refine ⟨fun h => absurd h hp, fun a ha => ?_⟩
  rw [hx] at ha
  cases ha

theorem imp (h : Returns x P Q) (hp : P ↔ P') (hq : ∀ a, Q a → Q' a) : Returns x P' Q' := by
  refine ⟨fun hp' => ?_, fun a ha => hp.mp (h.only a ha)⟩
  obtain ⟨a, ha, hqa⟩ := h.ok (hp.mpr hp')
  exact ⟨a, ha, hq a hqa⟩

theorem bind {f : α → Exec β} {R : β → Prop} (h : Returns x P Q) (hf : ∀ a, Q a → Returns (f a) P' R) :
    Returns (x >>= f) (P ∧ P') R := by
  constructor
  · rintro ⟨hp, hp'⟩
    obtain ⟨a, ha, hq⟩ := h.ok hp
    obtain ⟨b, hb, hr⟩ := (hf a hq).ok hp'
    exact ⟨b, bind_eq_ok.mpr ⟨a, ha, hb⟩, hr⟩
  · intro b hb
    obtain ⟨a, ha, hb⟩ := bind_eq_ok.mp hb
    have hp := h.only a ha
    obtain ⟨a', ha', hq⟩ := h.ok hp
    obtain rfl := Except.ok.inj (ha.symm.trans ha')
    exact ⟨hp, (hf a hq).only b hb⟩

theorem increment {n : Int} {f : Int → α} (hq : Q (f (n + 1))) :
    Returns ((StdText.increment n).map f) (inInt (n + 1)) Q := by
  unfold StdText.increment
  split_ifs with hint
  · exact of_ok rfl hint hq
  · exact of_error rfl hint

end Returns

def TracePair.entry (pair : TracePair) : Bytes × Int := (pair.className, pair.count)

namespace Trace

variable {t t' : Trace} {xs ys : List (Nat × (Bytes × Int))} {name : Bytes} {a : Nat} {v : Bytes × Int}

/-- The list from the head has these nodes: each is linked to the one before it and the one behind
it, the first and the last to null. -/
structure Listed (t : Trace) (nodes : List (Nat × (Bytes × Int))) : Prop where
  head : t.head = firstOr none nodes
  links : Links TracePair.entry TracePair.prev TracePair.next t.heap none nodes none
  nodup : (nodes.map Prod.fst).Nodup
  numPairs : t.numPairs = nodes.length

theorem listed_empty : Listed {} [] := ⟨rfl, trivial, List.nodup_nil, rfl⟩

theorem Listed.cell (hl : Listed t (xs ++ (a, v) :: ys)) :
    t.heap.cell a = some ⟨v.1, v.2, lastOr none xs, firstOr none ys⟩ := by
  obtain ⟨-, ⟨x, hx, hval, hprev, hnext⟩, -⟩ := links_append.mp hl.links
  rw [hx]
  cases x
  cases hval
  cases hprev
  cases hnext
  rfl

theorem Listed.lt_next {nodes : List (Nat × (Bytes × Int))} (hl : Listed t nodes) :
    ∀ node ∈ nodes, node.1 < t.heap.next :=
  fun node hnode => Heap.lt_next (hl.links.live node hnode)

theorem read_eq {pair : TracePair} (h : t.heap.cell a = some pair) : t.read (some a) = .ok pair := by
  unfold read
  rw [Heap.read_eq_some.mpr ⟨a, rfl, h⟩]

/-- One cell was written, everything else is as before. -/
structure Wrote (t t' : Trace) (a : Nat) (pair : TracePair) : Prop where
  head : t'.head = t.head
  numPairs : t'.numPairs = t.numPairs
  cell : ∀ b, t'.heap.cell b = if b = a then some pair else t.heap.cell b

theorem create_wrote (t : Trace) (name : Bytes) :
    Wrote t (t.create name).2 t.heap.next { className := name, count := 1 } :=
  ⟨rfl, rfl, alloc_cell t.heap _⟩

theorem wrote_of_live {pair : TracePair} (h : t.heap.cell a = some pair) (pair' : TracePair) :
    Wrote t { t with heap := t.heap.write (some a) pair' } a pair' :=
  ⟨rfl, rfl, write_cell (by rw [h]; rfl) pair'⟩

theorem setPrev_spec {pair : TracePair} (h : t.heap.cell a = some pair) (q : Option Nat) :
    ∃ t', t.setPrev (some a) q = .ok t' ∧ Wrote t t' a { pair with prev := q } := by
  refine ⟨_, ?_, wrote_of_live h _⟩
  unfold setPrev
  rw [read_eq h]
  rfl

theorem setNext_spec {pair : TracePair} (h : t.heap.cell a = some pair) (q : Option Nat) :
    ∃ t', t.setNext (some a) q = .ok t' ∧ Wrote t t' a { pair with next := q } := by
  refine ⟨_, ?_, wrote_of_live h _⟩
  unfold setNext
  rw [read_eq h]
  rfl

theorem setCount_spec {pair : TracePair} (h : t.heap.cell a = some pair) (count : Int) :
    Returns (t.setCount (some a) count) (inInt count) fun t' => Wrote t t' a { pair with count := count } := by
  unfold setCount
  rw [read_eq h]
  dsimp only [bind, Except.bind]
  split_ifs with hint
  · exact .of_ok rfl hint (wrote_of_live h _)
  · exact .of_error rfl hint

/-- The heap after a new pair was linked in between two neighbours. -/
structure Inserted (t t' : Trace) (name : Bytes) (before after : Option Nat) : Prop where
  new : t'.heap.cell t.heap.next = some ⟨name, 1, before, after⟩
  cell : ∀ b pair, b ≠ t.heap.next → t.heap.cell b = some pair →
    t'.heap.cell b = some ⟨pair.className, pair.count, if after = some b then some t.heap.next else pair.prev,
      if before = some b then some t.heap.next else pair.next⟩

theorem Listed.insert (hl : Listed t (xs ++ ys)) (hnew : Inserted t t' name (lastOr none xs) (firstOr none ys))
    (hhead : t'.head = firstOr (some t.heap.next) xs) (hnum : t'.numPairs = t.numPairs + 1) :
    Listed t' (xs ++ (t.heap.next, (name, 1)) :: ys) := by
  have hfresh : ∀ node ∈ xs ++ ys, node.1 ≠ t.heap.next := fun node hnode => (hl.lt_next node hnode).ne
  refine ⟨?_, ?_, ?_, ?_⟩
  · rw [hhead, firstOr_append]
    rfl
  · refine hl.links.insert hl.nodup hnew.new rfl rfl rfl ?_
    intro node hnode x hx
    exact ⟨_, hnew.cell node.1 x (hfresh node hnode) hx, rfl, rfl, rfl⟩
  · have hperm : (xs ++ (t.heap.next, (name, 1)) :: ys).Perm ((t.heap.next, (name, 1)) :: (xs ++ ys)) :=
      List.perm_middle
    rw [(hperm.map Prod.fst).nodup_iff, List.map_cons, List.nodup_cons]
    refine ⟨?_, hl.nodup⟩
    intro hmem
    obtain ⟨node, hnode, heq⟩ := List.mem_map.mp hmem
    exact hfresh node hnode heq
  · rw [hnum, hl.numPairs]
    simp
    omega

/-- `addFront` before the first node. -/
theorem addFront_spec (name : Bytes) (hl : Listed t ([] ++ (a, v) :: ys)) :
    Returns (t.addFront name (some a)) (inInt (t.numPairs + 1)) fun t' =>
      Listed t' ((t.heap.next, (name, 1)) :: (a, v) :: ys) := by
  have hcell := hl.cell
  have hne : a ≠ t.heap.next := (hl.lt_next _ List.mem_cons_self).ne
  have w1 := create_wrote t name
  obtain ⟨t2, h2, w2⟩ := setPrev_spec (((w1.cell a).trans (if_neg hne)).trans hcell) (some t.heap.next)
  have hnew : t2.heap.cell t.heap.next = some { className := name, count := 1 } := by
    rw [w2.cell, if_neg hne.symm, w1.cell, if_pos rfl]
  obtain ⟨t3, h3, w3⟩ := setNext_spec hnew (some a)
  have hnum : t3.numPairs = t.numPairs := by rw [w3.numPairs, w2.numPairs, w1.numPairs]
  have hadd : t.addFront name (some a) =
      (increment t.numPairs).map fun n => { t3 with head := some t.heap.next, numPairs := n } := by
    unfold addFront
    change (t.create name).2.setPrev (some a) (some t.heap.next) >>= _ = _
    rw [h2]
    change t2.setNext (some t.heap.next) (some a) >>= _ = _
    rw [h3]
    change increment t3.numPairs >>= _ = _
    rw [hnum]
    exact bind_return _ _
  rw [hadd]
  refine .increment (hl.insert ⟨?_, ?_⟩ rfl rfl)
  · exact (w3.cell _).trans (if_pos rfl)
  · intro b pair hb hpair
    change t3.heap.cell b = _
    rw [w3.cell, if_neg hb, w2.cell]
    by_cases hba : b = a
    · subst hba
      rw [if_pos rfl]
      obtain rfl := Option.some.inj (hcell.symm.trans hpair)
      simp
    · rw [if_neg hba, w1.cell, if_neg hb, hpair]
      simp [Ne.symm hba]

/-- `addLast` behind the last node. -/
theorem addLast_spec (name : Bytes) (hl : Listed t (xs ++ [(a, v)])) :
    Returns (t.addLast name (some a)) (inInt (t.numPairs + 1)) fun t' =>
      Listed t' (xs ++ [(a, v)] ++ [(t.heap.next, (name, 1))]) := by
  have hcell := hl.cell
  have hne : a ≠ t.heap.next := (hl.lt_next (a, v) (by simp)).ne
  have w1 := create_wrote t name
  obtain ⟨t2, h2, w2⟩ := setNext_spec (((w1.cell a).trans (if_neg hne)).trans hcell) (some t.heap.next)
  have hnew : t2.heap.cell t.heap.next = some { className := name, count := 1 } := by
    rw [w2.cell, if_neg hne.symm, w1.cell, if_pos rfl]
  obtain ⟨t3, h3, w3⟩ := setPrev_spec hnew (some a)
  have hnum : t3.numPairs = t.numPairs := by rw [w3.numPairs, w2.numPairs, w1.numPairs]
  have hadd : t.addLast name (some a) = (increment t.numPairs).map fun n => { t3 with numPairs := n } := by
    unfold addLast
    change (t.create name).2.setNext (some a) (some t.heap.next) >>= _ = _
    rw [h2]
    change t2.setPrev (some t.heap.next) (some a) >>= _ = _
    rw [h3]
    change increment t3.numPairs >>= _ = _
    rw [hnum]
    exact bind_return _ _
  rw [hadd]
  have hl' : Listed t ((xs ++ [(a, v)]) ++ []) := by rwa [List.append_nil]
  refine .increment (hl'.insert ⟨?_, ?_⟩ ?_ rfl)
  · rw [lastOr_concat]
    exact (w3.cell _).trans (if_pos rfl)
  · intro b pair hb hpair
    change t3.heap.cell b = _
    rw [lastOr_concat, w3.cell, if_neg hb, w2.cell]
    by_cases hba : b = a
    · subst hba
      rw [if_pos rfl]
      obtain rfl := Option.some.inj (hcell.symm.trans hpair)
      simp
    · rw [if_neg hba, w1.cell, if_neg hb, hpair]
      simp [Ne.symm hba]
  · change t3.head = _
    rw [w3.head, w2.head]
    refine hl.head.trans ?_
    cases xs <;> rfl

/-- `merge` between two nodes. -/
theorem merge_spec {d : Nat} {u : Bytes × Int} (name : Bytes)
    (hl : Listed t (xs ++ [(d, u)] ++ (a, v) :: ys)) :
    Returns (t.merge name (some a)) (inInt (t.numPairs + 1)) fun t' =>
      Listed t' (xs ++ [(d, u)] ++ (t.heap.next, (name, 1)) :: (a, v) :: ys) := by
  have hcell := hl.cell
  have hbefore : t.heap.cell d = some ⟨u.1, u.2, lastOr none xs, some a⟩ := by
    have hl' : Listed t (xs ++ (d, u) :: (a, v) :: ys) := by simpa using hl
    exact hl'.cell
  rw [lastOr_concat] at hcell
  have hne : a ≠ t.heap.next := (hl.lt_next (a, v) (by simp)).ne
  have hned : d ≠ t.heap.next := (hl.lt_next (d, u) (by simp)).ne
  have hda : d ≠ a := by
    rintro rfl
    have hnodup := hl.nodup
    simp [List.nodup_append] at hnodup
  have w1 := create_wrote t name
  have hcell1 := ((w1.cell a).trans (if_neg hne)).trans hcell
  obtain ⟨t2, h2, w2⟩ := setNext_spec (((w1.cell d).trans (if_neg hned)).trans hbefore) (some t.heap.next)
  have hcell2 := ((w2.cell a).trans (if_neg hda.symm)).trans hcell1
  have hnew2 : t2.heap.cell t.heap.next = some { className := name, count := 1 } := by
    rw [w2.cell, if_neg hned.symm, w1.cell, if_pos rfl]
  obtain ⟨t3, h3, w3⟩ := setPrev_spec hnew2 (some d)
  have hnew3 := (w3.cell t.heap.next).trans (if_pos rfl)
  obtain ⟨t4, h4, w4⟩ := setNext_spec hnew3 (some a)
  have hcell4 : t4.heap.cell a = some ⟨v.1, v.2, some d, firstOr none ys⟩ := by
    rw [w4.cell, if_neg hne, w3.cell, if_neg hne, hcell2]
  obtain ⟨t5, h5, w5⟩ := setPrev_spec hcell4 (some t.heap.next)
  have hnum : t5.numPairs = t.numPairs := by
    rw [w5.numPairs, w4.numPairs, w3.numPairs, w2.numPairs, w1.numPairs]
  have hmerge : t.merge name (some a) = (increment t.numPairs).map fun n => { t5 with numPairs := n } := by
    unfold merge
    change (t.create name).2.read (some a) >>= _ = _
    rw [read_eq hcell1]
    change (t.create name).2.setNext (some d) (some t.heap.next) >>= _ = _
    rw [h2]
    change t2.read (some a) >>= _ = _
    rw [read_eq hcell2]
    change t2.setPrev (some t.heap.next) (some d) >>= _ = _
    rw [h3]
    change t3.setNext (some t.heap.next) (some a) >>= _ = _
    rw [h4]
    change t4.setPrev (some a) (some t.heap.next) >>= _ = _
    rw [h5]
    change increment t5.numPairs >>= _ = _
    rw [hnum]
    exact bind_return _ _
  rw [hmerge]
  refine .increment (hl.insert ⟨?_, ?_⟩ ?_ rfl)
  · change t5.heap.cell _ = _
    rw [lastOr_concat, w5.cell, if_neg hne.symm, w4.cell, if_pos rfl]
    rfl
  · intro b pair hb hpair
    change t5.heap.cell b = _
    rw [lastOr_concat, w5.cell]
    by_cases hba : b = a
    · subst hba
      rw [if_pos rfl]
      obtain rfl := Option.some.inj (hcell.symm.trans hpair)
      simp [hda]
    · rw [if_neg hba, w4.cell, if_neg hb, w3.cell, if_neg hb, w2.cell]
      by_cases hbd : b = d
      · subst hbd
        rw [if_pos rfl]
        obtain rfl := Option.some.inj (hbefore.symm.trans hpair)
        simp [Ne.symm hba]
      · rw [if_neg hbd, w1.cell, if_neg hb, hpair]
        simp [Ne.symm hba, Ne.symm hbd]
  · change t5.head = _
    rw [w5.head, w4.head, w3.head, w2.head]
    refine hl.head.trans ?_
    cases xs <;> rfl

theorem Listed.setCount (hl : Listed t (xs ++ (a, v) :: ys)) (count : Int) :
    Returns (t.setCount (some a) count) (inInt count) fun t' => Listed t' (xs ++ (a, (v.1, count)) :: ys) := by
  refine (setCount_spec hl.cell count).imp Iff.rfl fun t' w => ⟨?_, ?_, ?_, ?_⟩
  · rw [w.head, hl.head]
    cases xs <;> rfl
  · refine hl.links.update hl.nodup ?_ fun b hb => (w.cell b).trans (if_neg hb)
    intro x hx
    obtain rfl := Option.some.inj (hl.cell.symm.trans hx)
    exact ⟨_, (w.cell a).trans (if_pos rfl), rfl, rfl, rfl⟩
  · simpa using hl.nodup
  · rw [w.numPairs, hl.numPairs]
    simp

/-- What stands behind the nodes passed by. -/
def marking (passed : List (Nat × (Bytes × Int))) : Int := if passed = [] then 0 else -1

/-- The counters can count a name among some entries: all comparisons, its own count if it stands there, and the nodes
if it does not. -/
structure Room (name : Bytes) (l : List (Bytes × Int)) (pairs : Int) : Prop where
  compared : ∀ e ∈ l, Countable name e.1
  counted : ∀ e ∈ l, e.1 = name → inInt (e.2 + 1)
  listed : (∀ e ∈ l, e.1 ≠ name) → inInt (pairs + 1)

section Room
variable {e : Bytes × Int} {l : List (Bytes × Int)} {pairs : Int}

theorem room_nil : Room name [] pairs ↔ inInt (pairs + 1) :=
  ⟨fun h => h.listed fun _ he => absurd he List.not_mem_nil, fun h =>
    ⟨fun _ he => absurd he List.not_mem_nil, fun _ he => absurd he List.not_mem_nil, fun _ => h⟩⟩

/-- A name before the first entry is not compared with the others, with which it has no more in common. -/
theorem room_before (hsorted : Sorted chars (e :: l)) (hlt : chars name < chars e.1) (hcount : Countable name e.1) :
    Room name (e :: l) pairs ↔ inInt (pairs + 1) := by
  obtain ⟨hbehind, -⟩ := List.pairwise_cons.mp hsorted
  have hless : ∀ f ∈ e :: l, chars name < chars f.1 :=
    List.forall_mem_cons.mpr ⟨hlt, fun f hf => hlt.trans (hbehind f hf)⟩
  have hne : ∀ f ∈ e :: l, f.1 ≠ name := by
    rintro f hf rfl
    exact lt_irrefl _ (hless f hf)
  refine ⟨fun h => h.listed hne, fun h => ⟨List.forall_mem_cons.mpr ⟨hcount, fun f hf => ?_⟩, ?_, fun _ => h⟩⟩
  · have hle := commonLength_le_of_between hlt.le (hbehind f hf).le
    exact countable_iff.mpr (hle.trans_lt (countable_iff.mp hcount))
  · exact fun f hf heq => absurd heq (hne f hf)

/-- A name that is the first entry is not compared with the others. -/
theorem room_here (hsorted : Sorted chars (e :: l)) (hcount : Countable e.1 e.1) :
    Room e.1 (e :: l) pairs ↔ inInt (e.2 + 1) := by
  obtain ⟨hbehind, -⟩ := List.pairwise_cons.mp hsorted
  refine ⟨fun h => h.counted e List.mem_cons_self rfl, fun h => ⟨fun f _ p hp _ => hcount p hp hp, ?_, ?_⟩⟩
  · refine List.forall_mem_cons.mpr ⟨fun _ => h, fun f hf heq => ?_⟩
    have hlt := hbehind f hf
    rw [heq] at hlt
    exact absurd hlt (lt_irrefl _)
  · exact fun hne => absurd rfl (hne e List.mem_cons_self)

/-- A name behind the first entry. -/
theorem room_behind (hgt : chars e.1 < chars name) (hcount : Countable name e.1) :
    Room name (e :: l) pairs ↔ Room name l pairs := by
  have hne : e.1 ≠ name := by
    rintro rfl
    exact lt_irrefl _ hgt
  constructor
  · rintro ⟨hcompared, hcounted, hlisted⟩
    exact ⟨(List.forall_mem_cons.mp hcompared).2, (List.forall_mem_cons.mp hcounted).2,
      fun h => hlisted (List.forall_mem_cons.mpr ⟨hne, h⟩)⟩
  · rintro ⟨hcompared, hcounted, hlisted⟩
    exact ⟨List.forall_mem_cons.mpr ⟨hcount, hcompared⟩, List.forall_mem_cons.mpr ⟨fun h => absurd h hne, hcounted⟩,
      fun h => hlisted (List.forall_mem_cons.mp h).2⟩

end Room

/-- The loop counts a name among the nodes from a place on as the tally does, where there is room for it. -/
theorem insertLoop_spec (hname : name ≠ []) (hl : Listed t (xs ++ ys)) (hys : ys ≠ [])
    (hnames : ∀ node ∈ ys, node.2.1 ≠ []) (hsorted : Sorted chars (ys.map Prod.snd)) {rounds : Nat}
    (hrounds : ys.length ≤ rounds) :
    Returns (insertLoop name rounds (firstOr none ys) (marking xs) t) (Room name (ys.map Prod.snd) t.numPairs)
      fun t' => ∃ nodes, Listed t' nodes ∧
        nodes.map Prod.snd = xs.map Prod.snd ++ bump chars name (ys.map Prod.snd) := by
  induction ys generalizing xs rounds with
  | nil => exact absurd rfl hys
  | cons node rest ih =>
    obtain ⟨a, v⟩ := node
    obtain ⟨rounds, rfl⟩ : ∃ r, rounds = r + 1 := ⟨rounds - 1, by simp at hrounds; omega⟩
    have hrounds : rest.length ≤ rounds := by simpa using hrounds
    have hcell := hl.cell
    obtain ⟨hv, hnames⟩ := List.forall_mem_cons.mp hnames
    have hrest : Sorted chars (rest.map Prod.snd) := (List.pairwise_cons.mp hsorted).2
    rw [List.map_cons] at hsorted ⊢
    unfold insertLoop
    rw [firstOr_cons]
    dsimp only
    rw [read_eq hcell]
    dsimp only [bind, Except.bind]
    rw [substrcmp_eq hname hv]
    by_cases hcount : commonLength name v.1 < 2 ^ 31
    swap
    · rw [if_neg hcount]
      exact .of_error rfl fun h => hcount (countable_iff.mp (h.compared v List.mem_cons_self))
    rw [if_pos hcount]
    rw [← countable_iff] at hcount
    dsimp only
    rcases lt_trichotomy (chars name) (chars v.1) with hlt | heq | hgt
    · -- the place is before this node
      have hroom := @room_before name v (rest.map Prod.snd) t.numPairs hsorted hlt hcount
      have hbump : bump chars name (v :: rest.map Prod.snd) = (name, 1) :: v :: rest.map Prod.snd := if_pos hlt
      rw [lexSign_eq_neg_one.mpr hlt, if_pos rfl, hbump]
      rcases List.eq_nil_or_concat xs with rfl | ⟨front, ⟨d, u⟩, rfl⟩
      · rw [if_pos (lastOr_nil none)]
        exact (addFront_spec name hl).imp hroom.symm fun t' hl' => ⟨_, hl', rfl⟩
      · rw [List.concat_eq_append] at hl ⊢
        rw [lastOr_concat, if_neg (by simp), if_pos (by simp [marking])]
        exact (merge_spec name hl).imp hroom.symm fun t' hl' => ⟨_, hl', by simp⟩
    · -- the name stands here
      obtain rfl := chars_injective heq
      have hbump : bump chars v.1 (v :: rest.map Prod.snd) = (v.1, v.2 + 1) :: rest.map Prod.snd := by simp [bump]
      rw [lexSign_eq_zero.mpr rfl, if_neg (by decide), if_pos rfl, hbump]
      exact (hl.setCount (v.2 + 1)).imp (room_here hsorted hcount).symm fun t' hl' => ⟨_, hl', by simp⟩
    · -- the place is further on
      have hroom := @room_behind name v (rest.map Prod.snd) t.numPairs hgt hcount
      have hbump : bump chars name (v :: rest.map Prod.snd) = v :: bump chars name (rest.map Prod.snd) := by
        rw [bump, if_neg hgt.not_gt, if_neg hgt.ne']
      rw [lexSign_eq_one.mpr hgt, if_neg (by decide), if_neg (by decide), if_pos rfl, hbump]
      cases rest with
      | nil =>
        rw [if_pos (firstOr_nil none)]
        refine (addLast_spec name hl).imp (hroom.trans room_nil).symm fun t' hl' => ⟨_, hl', ?_⟩
        simp [bump]
      | cons second rest =>
        have hmarked : marking xs ≠ 1 := by
          unfold marking
          split_ifs <;> decide
        have hmarking : marking (xs ++ [(a, v)]) = -1 := by simp [marking]
        rw [firstOr_cons, if_neg (by simp), if_neg hmarked]
        have hl' : Listed t ((xs ++ [(a, v)]) ++ second :: rest) := by simpa using hl
        have hloop := ih hl' (List.cons_ne_nil second rest) hnames hrest hrounds
        rw [firstOr_cons, hmarking] at hloop
        refine hloop.imp hroom.symm ?_
        rintro t' ⟨nodes, hlisted, hnodes⟩
        refine ⟨nodes, hlisted, ?_⟩
        rw [hnodes]
        simp

theorem Listed.rounds {nodes : List (Nat × (Bytes × Int))} (hl : Listed t nodes) : nodes.length ≤ t.heap.next := by
  rw [← List.length_map Prod.fst]
  refine length_le_next hl.nodup ?_
  intro a ha
  obtain ⟨node, hnode, rfl⟩ := List.mem_map.mp ha
  exact hl.links.live node hnode

theorem trace_spec {nodes : List (Nat × (Bytes × Int))} (hl : Listed t nodes) (hname : name ≠ [])
    (hnames : ∀ node ∈ nodes, node.2.1 ≠ []) (hsorted : Sorted chars (nodes.map Prod.snd)) :
    Returns (t.trace name) (Room name (nodes.map Prod.snd) nodes.length) fun t' =>
      ∃ nodes', Listed t' nodes' ∧ nodes'.map Prod.snd = bump chars name (nodes.map Prod.snd) := by
  rw [← hl.numPairs]
  unfold trace
  rw [if_neg hname, hl.head]
  cases nodes with
  | nil =>
    have hl' : Listed { t with heap := t.heap.alloc { className := name, count := 1 }, head := some t.heap.next
                               numPairs := t.numPairs + 1 } [(t.heap.next, (name, 1))] := by
      refine ⟨rfl, ⟨⟨_, alloc_cell_next t.heap _, rfl, rfl, rfl⟩, trivial⟩, List.nodup_singleton _, ?_⟩
      dsimp only
      rw [hl.numPairs]
      rfl
    exact Returns.imp (.increment hl') room_nil.symm fun t' hl' => ⟨_, hl', rfl⟩
  | cons node rest =>
    have hl' : Listed t ([] ++ node :: rest) := hl
    exact insertLoop_spec hname hl' (List.cons_ne_nil node rest) hnames hsorted hl.rounds

/-- The loop of `clean` lowers a name among the nodes from a place on. -/
theorem cleanLoop_spec (hl : Listed t (xs ++ ys)) {rounds : Nat} (hrounds : ys.length ≤ rounds) :
    Returns (cleanLoop name rounds (firstOr none ys) t) (∀ e ∈ ys.map Prod.snd, e.1 = name → inInt (e.2 - 1)) fun t' =>
      ∃ nodes, Listed t' nodes ∧ nodes.map Prod.snd = xs.map Prod.snd ++ lower name (ys.map Prod.snd) := by
  induction ys generalizing t xs rounds with
  | nil =>
    refine .of_ok (by cases rounds <;> rfl) (fun e he => absurd he List.not_mem_nil) ⟨xs, by simpa using hl, ?_⟩
    simp [lower]
  | cons node rest ih =>
    obtain ⟨a, v⟩ := node
    obtain ⟨rounds, rfl⟩ : ∃ r, rounds = r + 1 := ⟨rounds - 1, by simp at hrounds; omega⟩
    have hrounds : rest.length ≤ rounds := by simpa using hrounds
    -- whatever the node holds afterwards, the rest is as before
    have hloop : ∀ {t1 : Trace} {v' : Bytes × Int}, Listed t1 (xs ++ (a, v') :: rest) →
        v' = (if v.1 = name then (v.1, v.2 - 1) else v) →
        Returns (do let temp ← t1.read (some a); cleanLoop name rounds temp.next t1)
          (∀ e ∈ rest.map Prod.snd, e.1 = name → inInt (e.2 - 1)) fun t' => ∃ nodes, Listed t' nodes ∧
            nodes.map Prod.snd = xs.map Prod.snd ++ lower name (v :: rest.map Prod.snd) := by
      intro t1 v' hl1 hv'
      have hl1' : Listed t1 ((xs ++ [(a, v')]) ++ rest) := by simpa using hl1
      rw [read_eq hl1.cell]
      refine (ih hl1' hrounds).imp Iff.rfl ?_
      rintro t' ⟨nodes, hlisted, hnodes⟩
      refine ⟨nodes, hlisted, ?_⟩
      rw [hnodes, hv']
      simp [lower]
    unfold cleanLoop
    rw [firstOr_cons, List.map_cons, List.forall_mem_cons]
    dsimp only
    rw [read_eq hl.cell]
    change Returns (if v.1 = name then _ else _) _ _
    by_cases hv : v.1 = name
    · have hset := (hl.setCount (v.2 - 1)).bind fun t1 hl1 => hloop hl1 (if_pos hv).symm
      rw [if_pos hv]
      exact hset.imp (and_congr_left fun _ => ⟨fun h _ => h, fun h => h hv⟩) fun _ h => h
    · rw [if_neg hv]
      exact (hloop hl (if_neg hv).symm).imp (and_iff_right fun h => absurd h hv).symm fun _ h => h

theorem clean_spec {nodes : List (Nat × (Bytes × Int))} (hl : Listed t nodes) (name : Bytes) :
    Returns (t.clean name) (∀ e ∈ nodes.map Prod.snd, e.1 = name → inInt (e.2 - 1)) fun t' =>
      ∃ nodes', Listed t' nodes' ∧ nodes'.map Prod.snd = lower name (nodes.map Prod.snd) := by
  unfold clean
  have hl' : Listed t ([] ++ nodes) := hl
  rw [hl.head]
  exact cleanLoop_spec hl' hl.rounds

end Trace
end Jericho.Util
