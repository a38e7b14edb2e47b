import Jericho.Library.QueryText
import Jericho.Util.Url

/-! `_parseArgs` with the lengths it computes, and the queries that it reads. -/
namespace Jericho.Util
open StdText

/-- A string of `len` bytes at a C string. The terminator can be read, what is behind it cannot. -/
def sized (p : Bytes) (len : Int) : Exec Bytes :=
  if len < 0 then .error .lengthError
  else if len ≤ p.length + 1 then .ok ((p ++ [0]).take len.toNat) else .error .undefined

/-- The value of the last piece: a string of `len` bytes behind the sign, `len` being an `int` that
starts as the length of the whole query. -/
def lastValue (length : Nat) (piece : Bytes) : Exec Bytes :=
  sized (piece.dropWhile (· ≠ 61)).tail
    (asInt (asInt length - ((piece.takeWhile (· ≠ 61)).length - 1)))

/-- The pairs of the pieces. The sign is searched in all that follows, so a piece without one makes the
length of a value negative. -/
def sizedPairs (length : Nat) : List Bytes → Exec (List Field)
  | [] => .ok []
  | [last] => if 61 ∈ last then (lastValue length last).map fun value => [⟨last.takeWhile (· ≠ 61), value⟩] else .ok []
  | piece :: rest =>
    if 61 ∈ piece then do
      let pairs ← sizedPairs length rest
      return ⟨piece.takeWhile (· ≠ 61), (piece.dropWhile (· ≠ 61)).tail⟩ :: pairs
    else if rest.any (61 ∈ ·) then .error .lengthError
    else sizedPairs length rest

/-- `_parseArgs` -/
def Url.parseArgs (u : Url) (arglist : Bytes) : Exec Url := do
  let str := cstr arglist
  let pairs ← sizedPairs str.length (str.splitOn 38)
  return { u with args := u.args.assign pairs }

/-- No piece without a sign comes before one that has it. -/
def SignsFirst (pieces : List Bytes) : Prop := pieces.Pairwise fun piece later => 61 ∈ later → 61 ∈ piece

/-- The pieces before the last one have to come in order, and the last one has to have a readable value if
any. -/
theorem sizedPairs_ok_iff {length : Nat} {front : List Bytes} {last : Bytes} {pairs : List Field} :
    sizedPairs length (front ++ [last]) = .ok pairs ↔ SignsFirst (front ++ [last]) ∧
      ∃ lastPairs, sizedPairs length [last] = .ok lastPairs ∧
        pairs = front.filterMap (QueryText.pair 61) ++ lastPairs := by
  induction front generalizing pairs with
  | nil =>
    constructor
    · exact fun h => ⟨List.pairwise_singleton _ _, pairs, h, rfl⟩
    · rintro ⟨-, lastPairs, h, rfl⟩
      exact h
  | cons piece front ih =>
    have hcons : SignsFirst (piece :: (front ++ [last])) ↔
        (∀ later ∈ front ++ [last], (61 : Byte) ∈ later → 61 ∈ piece) ∧ SignsFirst (front ++ [last]) :=
      List.pairwise_cons
    obtain ⟨next, rest, hrest⟩ := List.exists_cons_of_ne_nil (List.append_ne_nil_of_right_ne_nil front
      (List.cons_ne_nil last []))
    have hstep : sizedPairs length (piece :: (front ++ [last])) =
        if 61 ∈ piece then (sizedPairs length (front ++ [last])).map
          (⟨piece.takeWhile (· ≠ 61), (piece.dropWhile (· ≠ 61)).tail⟩ :: ·)
        else if (front ++ [last]).any (61 ∈ ·) then .error .lengthError
        else sizedPairs length (front ++ [last]) := by
      rw [hrest]
      rfl
    rw [List.cons_append, hstep, hcons]
    by_cases hpiece : 61 ∈ piece
    · have hpair : QueryText.pair 61 piece = some ⟨piece.takeWhile (· ≠ 61), (piece.dropWhile (· ≠ 61)).tail⟩ :=
        if_pos hpiece
      rw [if_pos hpiece, map_eq_ok, List.filterMap_cons_some hpair]
      constructor
      · rintro ⟨more, hmore, rfl⟩
        obtain ⟨hordered, lastPairs, hlast, rfl⟩ := ih.mp hmore
        exact ⟨⟨fun _ _ _ => hpiece, hordered⟩, lastPairs, hlast, rfl⟩
      · rintro ⟨⟨-, hordered⟩, lastPairs, hlast, rfl⟩
        exact ⟨_, ih.mpr ⟨hordered, lastPairs, hlast, rfl⟩, rfl⟩
    · have hpair : QueryText.pair 61 piece = none := if_neg hpiece
      rw [if_neg hpiece, List.filterMap_cons_none hpair]
      by_cases hany : (front ++ [last]).any (61 ∈ ·) = true
      · rw [if_pos hany]
        obtain ⟨later, hmem, hsign⟩ := List.any_eq_true.mp hany
        constructor
        · intro h
          cases h
        · exact fun h => absurd (h.1.1 later hmem (of_decide_eq_true hsign)) hpiece
      · rw [if_neg hany, ih]
        have hnone : ∀ later ∈ front ++ [last], (61 : Byte) ∉ later := fun later hmem hsign =>
          hany (List.any_eq_true.mpr ⟨later, hmem, decide_eq_true hsign⟩)
        exact and_congr_left' ⟨fun hordered => ⟨fun later hmem hsign => absurd hsign (hnone later hmem), hordered⟩,
          And.right⟩

/-- How many bytes the value of the last piece is read with, for its own length and that of the pieces
before it with their separators. -/
def readCount (before value : Nat) : Nat := (before + value + 2) % 2 ^ 32

/-- The value of a last piece is read if the count is an `int` and does not go past the terminator. -/
theorem lastValue_ok_iff {before : Nat} {piece value : Bytes} (hsign : 61 ∈ piece) :
    lastValue (before + piece.length) piece = .ok value ↔
      readCount before ((piece.dropWhile (· ≠ 61)).tail.length) < 2 ^ 31 ∧
      readCount before ((piece.dropWhile (· ≠ 61)).tail.length) ≤ (piece.dropWhile (· ≠ 61)).tail.length + 1 ∧
      value = ((piece.dropWhile (· ≠ 61)).tail ++ [0]).take
        (readCount before ((piece.dropWhile (· ≠ 61)).tail.length)) := by
  have hlength : piece.length = (piece.takeWhile (· ≠ 61)).length + (piece.dropWhile (· ≠ 61)).tail.length + 1 := by
    have hcut := congrArg List.length (QueryText.eq_cut 61 hsign)
    rw [List.length_append, List.length_cons] at hcut
    omega
  unfold lastValue sized
  generalize (piece.dropWhile (· ≠ 61)).tail = v at hlength ⊢
  generalize (piece.takeWhile (· ≠ 61)).length = k at hlength ⊢
  have hlen : asInt (asInt (before + piece.length : Nat) - ((k : Int) - 1)) = asInt (before + v.length + 2 : Nat) := by
    rw [asInt_sub]
    congr 1
    omega
  obtain ⟨hneg, hpos⟩ := asInt_nat (before + v.length + 2)
  rw [hlen]
  unfold readCount
  by_cases hsmall : (before + v.length + 2) % 2 ^ 32 < 2 ^ 31
  · rw [if_neg (by omega), hpos hsmall]
    by_cases hroom : (before + v.length + 2) % 2 ^ 32 ≤ v.length + 1
    · rw [if_pos (by omega), Int.toNat_natCast]
      constructor
      · exact fun h => ⟨hsmall, hroom, (Except.ok.inj h).symm⟩
      · exact fun h => congrArg Except.ok h.2.2.symm
    · rw [if_neg (by omega)]
      refine iff_of_false (fun h => ?_) fun h => hroom h.2.1
      cases h
  · rw [if_pos (hneg.mpr (by omega))]
    refine iff_of_false (fun h => ?_) fun h => hsmall h.1
    cases h

/-- The pieces before the last one, the last one, and the length of its value. -/
def queryFront (query : Bytes) : List Bytes := (query.splitOn 38).dropLast
def queryLast (query : Bytes) : Bytes := (query.splitOn 38).getLastD []
def queryValue (query : Bytes) : Bytes := ((queryLast query).dropWhile (· ≠ 61)).tail

/-- How many bytes come before the last piece. -/
def queryBefore (query : Bytes) : Nat := ((queryFront query).flatMap (· ++ [38])).length

theorem splitOn_query (query : Bytes) : query.splitOn 38 = queryFront query ++ [queryLast query] := by
  have hne : query.splitOn 38 ≠ [] := List.splitOnP_ne_nil _ _
  have hlast : queryLast query = (query.splitOn 38).getLast hne := by
    rw [queryLast, List.getLastD_eq_getLast?, List.getLast?_eq_some_getLast hne]
    rfl
  rw [hlast]
  exact (List.dropLast_append_getLast hne).symm

theorem length_query (query : Bytes) : query.length = queryBefore query + (queryLast query).length :=
  (congrArg List.length (QueryText.eq_of_splitOn 38 (splitOn_query query))).trans List.length_append

/-- A query that is read without a failure. -/
structure QueryReturns (query : Bytes) : Prop where
  signsFirst : SignsFirst (query.splitOn 38)
  count : 61 ∈ queryLast query → readCount (queryBefore query) (queryValue query).length < 2 ^ 31 ∧
    readCount (queryBefore query) (queryValue query).length ≤ (queryValue query).length + 1

/-- A query that is read as it should be: the pieces with a sign come first, and there is none in the last
piece, unless the bytes before it make up for the count in 32 bits. -/
structure QueryReadable (query : Bytes) : Prop where
  signsFirst : SignsFirst (query.splitOn 38)
  last : 61 ∈ queryLast query → 2 ^ 32 ∣ queryBefore query + 2 ∧ (queryValue query).length < 2 ^ 31

variable {u : Url} {query : Bytes}

/-- The pair of the last piece, with its value as it is read. -/
def lastRead (query : Bytes) : List Field :=
  if 61 ∈ queryLast query then
    [⟨(queryLast query).takeWhile (· ≠ 61),
      (queryValue query ++ [0]).take (readCount (queryBefore query) (queryValue query).length)⟩]
  else []

theorem sizedPairs_last {lastPairs : List Field} :
    sizedPairs query.length [queryLast query] = .ok lastPairs ↔
      (61 ∈ queryLast query → readCount (queryBefore query) (queryValue query).length < 2 ^ 31 ∧
        readCount (queryBefore query) (queryValue query).length ≤ (queryValue query).length + 1) ∧
      lastPairs = lastRead query := by
  rw [sizedPairs, length_query, lastRead]
  split_ifs with hsign
  · rw [map_eq_ok]
    constructor
    · rintro ⟨value, hvalue, rfl⟩
      obtain ⟨hsmall, hroom, rfl⟩ := (lastValue_ok_iff hsign).mp hvalue
      exact ⟨fun _ => ⟨hsmall, hroom⟩, rfl⟩
    · rintro ⟨hcount, rfl⟩
      exact ⟨_, (lastValue_ok_iff hsign).mpr ⟨(hcount hsign).1, (hcount hsign).2, rfl⟩, rfl⟩
  · exact ⟨fun h => ⟨fun h61 => absurd h61 hsign, (Except.ok.inj h).symm⟩, fun h => congrArg Except.ok h.2.symm⟩

/-- What `_parseArgs` returns, and when. -/
theorem parseArgs_eq_ok (hquery : (0 : Byte) ∉ query) {v : Url} :
    u.parseArgs query = .ok v ↔ QueryReturns query ∧
      v = { u with args := u.args.assign ((queryFront query).filterMap (QueryText.pair 61) ++ lastRead query) } := by
  unfold Url.parseArgs
  rw [cstr_eq_self_iff.mpr hquery, bind_eq_ok]
  constructor
  · rintro ⟨pairs, hpairs, hv⟩
    rw [splitOn_query] at hpairs
    obtain ⟨hordered, lastPairs, hlast, rfl⟩ := sizedPairs_ok_iff.mp hpairs
    obtain ⟨hcount, rfl⟩ := sizedPairs_last.mp hlast
    rw [← splitOn_query] at hordered
    exact ⟨⟨hordered, hcount⟩, (Except.ok.inj hv).symm⟩
  · rintro ⟨⟨hordered, hcount⟩, rfl⟩
    refine ⟨_, ?_, rfl⟩
    rw [splitOn_query] at hordered ⊢
    exact sizedPairs_ok_iff.mpr ⟨hordered, _, sizedPairs_last.mpr ⟨hcount, rfl⟩, rfl⟩

/-- `_parseArgs` returns the last-wins map of the pairs of the query. -/
def ArgsRead (u : Url) (query : Bytes) : Prop :=
  ∃ v, u.parseArgs query = .ok v ∧ ∀ key, v.args.lookup key = (QueryText.pairs 38 61 query).reverse.dlookup key

theorem pairs_query (query : Bytes) :
    QueryText.pairs 38 61 query = (queryFront query).filterMap (QueryText.pair 61) ++
      if 61 ∈ queryLast query then [⟨(queryLast query).takeWhile (· ≠ 61), queryValue query⟩] else [] := by
  unfold QueryText.pairs
  rw [splitOn_query, List.filterMap_append]
  congr 1
  by_cases hsign : 61 ∈ queryLast query
  · have hpair : QueryText.pair 61 (queryLast query) =
        some ⟨(queryLast query).takeWhile (· ≠ 61), queryValue query⟩ := if_pos hsign
    rw [List.filterMap_cons_some hpair, if_pos hsign]
    rfl
  · have hpair : QueryText.pair 61 (queryLast query) = none := if_neg hsign
    rw [List.filterMap_cons_none hpair, if_neg hsign]
    rfl

/-- The count is the length of the value. -/
theorem readCount_eq_iff (before value : Nat) :
    readCount before value < 2 ^ 31 ∧ readCount before value = value ↔ 2 ^ 32 ∣ before + 2 ∧ value < 2 ^ 31 := by
  unfold readCount
  omega

/-- A query is read as it should be exactly if it is readable. -/
theorem args_read_iff (hu : u.args = ∅) (hquery : (0 : Byte) ∉ query) : ArgsRead u query ↔ QueryReadable query := by
  have hlookup : ∀ pairs key, (u.args.assign pairs).lookup key = pairs.reverse.dlookup key := by
    intro pairs key
    rw [StrMap.lookup_assign, hu]
    exact Option.or_none
  constructor
  · rintro ⟨v, hv, hall⟩
    obtain ⟨⟨hordered, hcount⟩, rfl⟩ := (parseArgs_eq_ok hquery).mp hv
    refine ⟨hordered, fun hsign => ?_⟩
    obtain ⟨hsmall, hroom⟩ := hcount hsign
    have hvalue := hall ((queryLast query).takeWhile (· ≠ 61))
    rw [hlookup, pairs_query, lastRead, if_pos hsign, if_pos hsign, List.reverse_append, List.reverse_append,
      List.reverse_singleton, List.reverse_singleton, List.singleton_append, List.singleton_append,
      List.dlookup_cons_eq, List.dlookup_cons_eq] at hvalue
    have hlength := congrArg List.length (Option.some.inj hvalue)
    rw [List.length_take, List.length_append, List.length_singleton, min_eq_left hroom] at hlength
    exact (readCount_eq_iff _ _).mp ⟨hsmall, hlength⟩
  · rintro ⟨hordered, hlast⟩
    have hcount : 61 ∈ queryLast query → readCount (queryBefore query) (queryValue query).length < 2 ^ 31 ∧
        readCount (queryBefore query) (queryValue query).length = (queryValue query).length :=
      fun hsign => (readCount_eq_iff _ _).mpr (hlast hsign)
    refine ⟨_, (parseArgs_eq_ok hquery).mpr
      ⟨⟨hordered, fun hsign => ⟨(hcount hsign).1, (hcount hsign).2.le.trans (Nat.le_succ _)⟩⟩, rfl⟩, fun key => ?_⟩
    rw [hlookup, pairs_query, lastRead]
    split_ifs with hsign
    · rw [(hcount hsign).2, List.take_left]
    · rfl

/-- A flag behind the last pair makes a query readable. -/
theorem args_read_flag : ({ protocol := [], hostname := [], path := [], url := [] } : Url).args = ∅ ∧
    (0 : Byte) ∉ lit "k=v&f" ∧ ArgsRead { protocol := [], hostname := [], path := [], url := [] } (lit "k=v&f") := by
  refine ⟨rfl, by decide, (args_read_iff rfl (by decide)).mpr ⟨?_, ?_⟩⟩
  · exact List.pairwise_pair.mpr fun _ => by decide
  · exact fun hsign => absurd hsign (by decide)

/-- The value of a single pair is read past the terminator. -/
theorem args_read_past : ¬ ArgsRead { protocol := [], hostname := [], path := [], url := [] } (lit "k=v") := by
  rintro ⟨v, hv, -⟩
  have hroom := (((parseArgs_eq_ok (by decide)).mp hv).1.count (by decide)).2
  revert hroom
  decide

end Jericho.Util
