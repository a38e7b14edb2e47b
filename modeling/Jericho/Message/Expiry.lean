import Jericho.Message.Lifetime

/-! The sweep of `cleanse` over the table: which brokers it takes away, and when that is what their
messages ask for. -/
namespace Jericho.Message
open StdText Util Server

/-- The age of a message in microseconds. -/
def MessageBuffer.age (m : MessageBuffer) (now : Int) : Int := (now - m.timestamp).tdiv 1000

/-- A message that is older than its own timeout. -/
def MessageBuffer.Older (m : MessageBuffer) (now : Int) : Prop := m.timeout < m.age now

instance (m : MessageBuffer) (now : Int) : Decidable (m.Older now) := inferInstanceAs (Decidable (_ < _))

namespace Bifrost

theorem expired_iff (now : Int) (m : MessageBuffer) :
    expired now m = true ↔ m.timeout < Int.bmod (m.age now) (2 ^ 32) := decide_eq_true_iff

/-- A table whose brokers list messages that are there, no two of them the same one, beside a list of
replies. -/
structure Listing (s : Bifrost) : Prop where
  live : ∀ t b, s.brokers.lookup t = some b → ∀ buf ∈ b.messages, ∃ a m, buf = some a ∧ s.heap.cell a = some m
  apart : ∀ t t' b b', t ≠ t' → s.brokers.lookup t = some b → s.brokers.lookup t' = some b' →
    ∀ a, some a ∈ b.messages → some a ∉ b'.messages
  fnfs : ∀ a ∈ s.fnfs, (s.heap.cell a).isSome
  fnfs_apart : ∀ a ∈ s.fnfs, ∀ t b, s.brokers.lookup t = some b → some a ∉ b.messages
  nodup : s.fnfs.Nodup

/-- All messages of a broker are older than their timeouts. -/
def AllOlder (s : Bifrost) (now : Int) (b : MessageBroker) : Prop :=
  ∀ a m, some a ∈ b.messages → s.heap.cell a = some m → m.Older now

/-- The sweep leaves nothing of the messages. -/
def Gone (s : Bifrost) (now : Int) (b : MessageBroker) : Prop := s.unexpired now b.messages = .ok []

/-- Nothing is left of no message, and of a single one that expired. -/
theorem unexpired_spec {s : Bifrost} (now : Int) {messages : List (Option Addr)}
    (h : ∀ buf ∈ messages, ∃ m, s.deref buf = .ok m) :
    ∃ left, s.unexpired now messages = .ok left ∧
      (left = [] ↔ messages = [] ∨ ∃ buf m, messages = [buf] ∧ s.deref buf = .ok m ∧ expired now m = true) := by
  induction messages using unexpired.induct with
  | case1 => exact ⟨[], rfl, iff_of_true rfl (.inl rfl)⟩
  | case2 buf =>
    obtain ⟨m, hm⟩ := h buf List.mem_cons_self
    refine ⟨if expired now m then [] else [buf], by rw [unexpired, hm]; rfl, ?_⟩
    by_cases hexp : expired now m = true
    · rw [if_pos hexp]
      exact iff_of_true rfl (.inr ⟨buf, m, rfl, hm, hexp⟩)
    · rw [if_neg hexp]
      refine iff_of_false (List.cons_ne_nil _ _) ?_
      rintro (hnil | ⟨buf', m', heq, hm', hexp'⟩)
      · exact List.cons_ne_nil _ _ hnil
      · obtain rfl := (List.cons.inj heq).1
        obtain rfl := Except.ok.inj (hm.symm.trans hm')
        exact hexp hexp'
  | case3 buf next rest ih₁ ih₂ =>
    obtain ⟨m, hm⟩ := h buf List.mem_cons_self
    have hmore : ¬ (buf :: next :: rest = [] ∨
        ∃ buf' m', buf :: next :: rest = [buf'] ∧ s.deref buf' = .ok m' ∧ expired now m' = true) := by
      rintro (hnil | ⟨buf', m', heq, -⟩)
      · exact List.cons_ne_nil _ _ hnil
      · exact List.cons_ne_nil _ _ (List.cons.inj heq).2
    by_cases hexp : expired now m = true
    · obtain ⟨left, hleft, -⟩ := ih₁ fun b hb => h b (List.mem_cons_of_mem _ (List.mem_cons_of_mem _ hb))
      refine ⟨next :: left, ?_, iff_of_false (List.cons_ne_nil _ _) hmore⟩
      rw [unexpired, hm]
      dsimp only [bind, Except.bind]
      rw [if_pos hexp, hleft]
      rfl
    · obtain ⟨left, hleft, -⟩ := ih₂ fun b hb => h b (List.mem_cons_of_mem _ hb)
      refine ⟨buf :: left, ?_, iff_of_false (List.cons_ne_nil _ _) hmore⟩
      rw [unexpired, hm]
      dsimp only [bind, Except.bind]
      rw [if_neg hexp, hleft]
      rfl

/-- What the sweep has left of a state: brokers with their messages, and the list of replies. -/
structure Kept (s u : Bifrost) : Prop where
  table : ∀ t b, u.brokers.lookup t = some b → s.brokers.lookup t = some b
  cells : ∀ t b, u.brokers.lookup t = some b → ∀ a, some a ∈ b.messages → u.heap.cell a = s.heap.cell a
  fnfs : u.fnfs = s.fnfs
  replies : ∀ a ∈ s.fnfs, u.heap.cell a = s.heap.cell a

variable {s u : Bifrost} {now : Int}

/-- One broker: it goes or stays as it was, and the others stay. -/
theorem cleanseBroker_kept (hs : Listing s) (hu : Kept s u) {t : Int} {b : MessageBroker}
    (hb : u.brokers.lookup t = some b) :
    ∃ v, cleanseBroker now u ⟨t, b⟩ = .ok v ∧ Kept s v ∧
      (∀ t', t' ≠ t → v.brokers.lookup t' = u.brokers.lookup t') ∧
      (Gone s now b → v.brokers.lookup t = none) ∧ (¬ Gone s now b → v.brokers.lookup t = some b) := by
  have hb' := hu.table t b hb
  have hsame := unexpired_congr now (hu.cells t b hb)
  obtain ⟨left, hleft, -⟩ := unexpired_spec (s := s) now fun buf hbuf => by
    obtain ⟨a, m, rfl, hm⟩ := hs.live t b hb' buf hbuf
    exact ⟨m, deref_spec.mpr ⟨a, rfl, hm⟩⟩
  have hread := hsame.trans hleft
  by_cases hnil : left = []
  · subst hnil
    obtain ⟨heap, heq, -, hcell⟩ := erase_spec u t
    refine ⟨u.erase t, by rw [cleanseBroker, hread]; rfl, ⟨fun t' b₁ h₁ => ?_, fun t' b₁ h₁ a ha => ?_, ?_, fun a ha => ?_⟩,
      fun t' ht => lookup_erase_of_ne ht, fun _ => lookup_erase_self u t, fun hgone => absurd hleft hgone⟩
    · by_cases ht : t' = t
      · rw [ht, lookup_erase_self] at h₁
        cases h₁
      · rw [lookup_erase_of_ne ht] at h₁
        exact hu.table t' b₁ h₁
    · by_cases ht : t' = t
      · rw [ht, lookup_erase_self] at h₁
        cases h₁
      · rw [lookup_erase_of_ne ht] at h₁
        rw [heq]
        refine (hcell a fun b₀ hb₀ => ?_).trans (hu.cells t' b₁ h₁ a ha)
        exact hs.apart t' t b₁ b₀ ht (hu.table t' b₁ h₁) (hu.table t b₀ hb₀) a ha
    · rw [heq]
      exact hu.fnfs
    · rw [heq]
      exact (hcell a fun b₀ hb₀ => hs.fnfs_apart a ha t b₀ (hu.table t b₀ hb₀)).trans (hu.replies a ha)
  · refine ⟨u, ?_, hu, fun _ _ => rfl, fun hgone => ?_, fun _ => hb⟩
    · rw [cleanseBroker, hread]
      dsimp only [bind, Except.bind]
      rw [if_neg hnil]
      rfl
    · exact absurd (Except.ok.inj (hleft.symm.trans hgone)) hnil

/-- The loop over some brokers of the table. -/
theorem cleanseBrokers_kept (hs : Listing s) {l : List (Σ _ : Int, MessageBroker)} (hl : (l.map Sigma.fst).Nodup)
    (hu : Kept s u) (htable : ∀ e ∈ l, u.brokers.lookup e.1 = some e.2) :
    ∃ v, l.foldlM (cleanseBroker now) u = .ok v ∧ Kept s v ∧
      (∀ t, t ∉ l.map Sigma.fst → v.brokers.lookup t = u.brokers.lookup t) ∧
      ∀ e ∈ l, (Gone s now e.2 → v.brokers.lookup e.1 = none) ∧ (¬ Gone s now e.2 → v.brokers.lookup e.1 = some e.2) := by
  induction l generalizing u with
  | nil => exact ⟨u, rfl, hu, fun _ _ => rfl, fun e he => absurd he List.not_mem_nil⟩
  | cons e l ih =>
    obtain ⟨hnew, hl⟩ := List.nodup_cons.mp hl
    obtain ⟨v, hv, hkept, hothers, hgone, hstays⟩ := cleanseBroker_kept hs hu (htable e List.mem_cons_self)
    have hne : ∀ e' ∈ l, e'.1 ≠ e.1 := fun e' he' heq => hnew (heq ▸ List.mem_map_of_mem he')
    obtain ⟨w, hw, hkept', hothers', hall⟩ := ih hl hkept fun e' he' =>
      (hothers e'.1 (hne e' he')).trans (htable e' (List.mem_cons_of_mem e he'))
    refine ⟨w, ?_, hkept', fun t ht => ?_, fun e' he' => ?_⟩
    · rw [List.foldlM_cons, hv]
      exact hw
    · rw [List.map_cons, List.mem_cons, not_or] at ht
      exact (hothers' t ht.2).trans (hothers t ht.1)
    · rcases List.mem_cons.mp he' with rfl | he'
      · have hsame := hothers' e'.1 hnew
        exact ⟨fun h => hsame.trans (hgone h), fun h => hsame.trans (hstays h)⟩
      · exact hall e' he'

/-- The loop over the replies frees some of them and touches nothing else. -/
theorem cleanseFnfs_kept {l : List Addr} (hl : l.Nodup) (hlive : ∀ a ∈ l, (u.heap.cell a).isSome) :
    ∃ v, l.foldlM cleanseFnf u = .ok v ∧ v.brokers = u.brokers ∧ ∀ a ∉ l, v.heap.cell a = u.heap.cell a := by
  induction l generalizing u with
  | nil => exact ⟨u, rfl, rfl, fun _ _ => rfl⟩
  | cons a l ih =>
    obtain ⟨hnew, hl⟩ := List.nodup_cons.mp hl
    obtain ⟨m, hm⟩ := Option.isSome_iff_exists.mp (hlive a List.mem_cons_self)
    have hread : u.deref (some a) = .ok m := deref_spec.mpr ⟨a, rfl, hm⟩
    by_cases hful : m.fulfilled ≠ 0
    · have hcell : ∀ {c}, c ≠ a → (u.heap.free [some a]).cell c = u.heap.cell c :=
        fun hc => Heap.free_cell_of_notMem fun hmem => hc (Option.some.inj (List.mem_singleton.mp hmem))
      obtain ⟨v, hv, hbrokers, hcells⟩ := @ih { u with heap := u.heap.free [some a], fnfs := u.fnfs.erase a } hl
        fun c hc => by
          rw [hcell fun hca => hnew (hca ▸ hc)]
          exact hlive c (List.mem_cons_of_mem a hc)
      refine ⟨v, ?_, hbrokers, fun c hc => ?_⟩
      · rw [List.foldlM_cons, cleanseFnf, hread]
        dsimp only [bind, Except.bind]
        rw [if_pos hful]
        exact hv
      · rw [List.mem_cons, not_or] at hc
        exact (hcells c hc.2).trans (hcell hc.1)
    · obtain ⟨v, hv, hbrokers, hcells⟩ := ih hl fun c hc => hlive c (List.mem_cons_of_mem a hc)
      refine ⟨v, ?_, hbrokers, fun c hc => hcells c fun hmem => hc (List.mem_cons_of_mem a hmem)⟩
      rw [List.foldlM_cons, cleanseFnf, hread]
      dsimp only [bind, Except.bind]
      rw [if_neg hful]
      exact hv

/-- A sweep ends, and leaves the brokers with something left of their messages, as they were. -/
theorem cleanse_kept (hs : Listing s) (now : Int) :
    ∃ s', s.cleanse now = .ok s' ∧ (∀ t, s.brokers.lookup t = none → s'.brokers.lookup t = none) ∧
      ∀ t b, s.brokers.lookup t = some b → (Gone s now b → s'.brokers.lookup t = none) ∧
        (¬ Gone s now b → s'.brokers.lookup t = some b ∧ ∀ a, some a ∈ b.messages → s'.heap.cell a = s.heap.cell a) := by
  have hstart : Kept s s := ⟨fun _ _ h => h, fun _ _ _ _ _ => rfl, rfl, fun _ _ => rfl⟩
  obtain ⟨v, hv, hkept, hothers, hall⟩ :=
    @cleanseBrokers_kept s s now hs s.brokers.entries s.brokers.nodupKeys hstart fun e he => AList.mem_lookup_iff.mpr he
  obtain ⟨w, hw, hbrokers, hcells⟩ := cleanseFnfs_kept (u := v) (hkept.fnfs ▸ hs.nodup) fun a ha => by
    rw [hkept.fnfs] at ha
    rw [hkept.replies a ha]
    exact hs.fnfs a ha
  refine ⟨w, ?_, fun t ht => ?_, fun t b hb => ⟨fun hgone => ?_, fun hstays => ⟨?_, fun a ha => ?_⟩⟩⟩
  · rw [cleanse, hv]
    exact hw
  · rw [hbrokers, hothers t fun hmem => ?_]
    · exact ht
    · exact AList.lookup_eq_none.mp ht hmem
  · rw [hbrokers]
    exact (hall ⟨t, b⟩ (AList.mem_lookup_iff.mp hb)).1 hgone
  · rw [hbrokers]
    exact (hall ⟨t, b⟩ (AList.mem_lookup_iff.mp hb)).2 hstays
  · have hleft := (hall ⟨t, b⟩ (AList.mem_lookup_iff.mp hb)).2 hstays
    refine (hcells a fun hmem => ?_).trans (hkept.cells t b hleft a ha)
    exact hs.fnfs_apart a (hkept.fnfs ▸ hmem) t b hb ha

/-- What a sweep should do: take away the brokers whose messages are all too old, leave the others as they
were, and take away nothing that a later sweep would keep. -/
def Sweeps (s : Bifrost) (now : Int) : Prop :=
  ∃ s', s.cleanse now = .ok s' ∧ (∀ t, s.brokers.lookup t = none → s'.brokers.lookup t = none) ∧
    ∀ t b, s.brokers.lookup t = some b →
      (AllOlder s now b → s'.brokers.lookup t = none) ∧
      (¬ AllOlder s now b → s'.brokers.lookup t = some b ∧ ∀ a, some a ∈ b.messages → s'.heap.cell a = s.heap.cell a) ∧
      (s'.brokers.lookup t = none → ∀ later, now ≤ later → ∀ s'', s.cleanse later = .ok s'' →
        s''.brokers.lookup t = none)

/-- A broker without messages, or with one that is not too old, and if it is the only one does not become
it as an `int`; or with a single one that is too old and always is, as an `int`. -/
def Clear (s : Bifrost) (now : Int) (b : MessageBroker) : Prop :=
  b.messages = [] ∨
  (∃ a m, some a ∈ b.messages ∧ s.heap.cell a = some m ∧ ¬ m.Older now ∧
    (b.messages.length = 1 → Int.bmod (m.age now) (2 ^ 32) ≤ m.timeout)) ∨
  ∃ a m, b.messages = [some a] ∧ s.heap.cell a = some m ∧ m.Older now ∧ m.timeout < -2 ^ 31

variable {b : MessageBroker}

theorem gone_iff (hlive : ∀ buf ∈ b.messages, ∃ a m, buf = some a ∧ s.heap.cell a = some m) :
    Gone s now b ↔ b.messages = [] ∨
      ∃ a m, b.messages = [some a] ∧ s.heap.cell a = some m ∧ m.timeout < Int.bmod (m.age now) (2 ^ 32) := by
  obtain ⟨left, hleft, hiff⟩ := unexpired_spec (s := s) now fun buf hbuf => by
    obtain ⟨a, m, rfl, hm⟩ := hlive buf hbuf
    exact ⟨m, deref_spec.mpr ⟨a, rfl, hm⟩⟩
  have hgone : Gone s now b ↔ left = [] := by
    unfold Gone
    rw [hleft]
    exact ⟨fun heq => Except.ok.inj heq, fun heq => congrArg Except.ok heq⟩
  rw [hgone, hiff]
  refine or_congr_right ⟨?_, ?_⟩
  · rintro ⟨buf, m, hone, hread, hexp⟩
    obtain ⟨a, rfl, hm⟩ := deref_spec.mp hread
    exact ⟨a, m, hone, hm, (expired_iff now m).mp hexp⟩
  · rintro ⟨a, m, hone, hm, hexp⟩
    exact ⟨some a, m, hone, deref_spec.mpr ⟨a, rfl, hm⟩, (expired_iff now m).mpr hexp⟩

theorem sweeps_iff_gone (hs : Listing s) (now : Int) :
    Sweeps s now ↔ ∀ t b, s.brokers.lookup t = some b →
      (Gone s now b ↔ AllOlder s now b) ∧ (Gone s now b → ∀ later, now ≤ later → Gone s later b) := by
  obtain ⟨s', hs', hnone, hall⟩ := cleanse_kept hs now
  have hiff : ∀ {t b}, s.brokers.lookup t = some b → ∀ time w, s.cleanse time = .ok w →
      (w.brokers.lookup t = none ↔ Gone s time b) := by
    intro t b hb time w hw
    obtain ⟨w', hw', -, hall'⟩ := cleanse_kept hs time
    obtain rfl := Except.ok.inj (hw.symm.trans hw')
    refine ⟨fun hgone => ?_, (hall' t b hb).1⟩
    by_contra hstays
    cases hgone.symm.trans ((hall' t b hb).2 hstays).1
  constructor
  · rintro ⟨w, hw, -, hsweeps⟩ t b hb
    obtain ⟨hold, hyoung, hlater⟩ := hsweeps t b hb
    refine ⟨⟨fun hgone => ?_, fun hall => (hiff hb now w hw).mp (hold hall)⟩, fun hgone later hle => ?_⟩
    · by_contra hnot
      cases ((hiff hb now w hw).mpr hgone).symm.trans (hyoung hnot).1
    · obtain ⟨w', hw', -, -⟩ := cleanse_kept hs later
      exact (hiff hb later w' hw').mp (hlater ((hiff hb now w hw).mpr hgone) later hle w' hw')
  · intro hclear
    refine ⟨s', hs', hnone, fun t b hb => ?_⟩
    obtain ⟨hexact, hlater⟩ := hclear t b hb
    refine ⟨fun hold => (hall t b hb).1 (hexact.mpr hold), fun hyoung => (hall t b hb).2 (mt hexact.mp hyoung),
      fun hgone later hle w hw => ?_⟩
    exact (hiff hb later w hw).mpr (hlater ((hiff hb now s' hs').mp hgone) later hle)

theorem bmod_le (n : Int) : -2 ^ 31 ≤ Int.bmod n (2 ^ 32) ∧ Int.bmod n (2 ^ 32) < 2 ^ 31 := by
  rw [Int.bmod_def]
  split_ifs <;> omega

/-- Some later age is the least `int`. -/
theorem exists_wrapped (m : MessageBuffer) (now : Int) (hage : Int.bmod (m.age now) (2 ^ 32) ≠ -2 ^ 31) :
    ∃ later, now ≤ later ∧ Int.bmod (m.age later) (2 ^ 32) = -2 ^ 31 := by
  refine ⟨m.timestamp + (m.age now + (-2 ^ 31 - m.age now) % 2 ^ 32) * 1000, ?_, ?_⟩
  · have hfloor : now - m.timestamp < m.age now * 1000 + 1000 := by
      have hrem := Int.tmod_add_mul_tdiv (now - m.timestamp) 1000
      have hless := Int.tmod_lt_of_pos (now - m.timestamp) (b := 1000) (by decide)
      unfold MessageBuffer.age
      omega
    have hstep : (-2 ^ 31 - m.age now) % 2 ^ 32 ≠ 0 := by
      intro hzero
      apply hage
      rw [Int.bmod_def]
      split_ifs <;> omega
    omega
  · have hlater : m.age (m.timestamp + (m.age now + (-2 ^ 31 - m.age now) % 2 ^ 32) * 1000) =
        m.age now + (-2 ^ 31 - m.age now) % 2 ^ 32 := by
      unfold MessageBuffer.age
      rw [add_sub_cancel_left, Int.mul_tdiv_cancel _ (by decide)]
    rw [hlater, Int.bmod_def]
    split_ifs <;> omega

/-- A single message. -/
theorem gone_iff_clear_one {a : Addr} {m : MessageBuffer} (hone : b.messages = [some a]) (hm : s.heap.cell a = some m) :
    (Gone s now b ↔ AllOlder s now b) ∧ (Gone s now b → ∀ later, now ≤ later → Gone s later b) ↔ Clear s now b := by
  have hgone : ∀ time, Gone s time b ↔ m.timeout < Int.bmod (m.age time) (2 ^ 32) := by
    intro time
    rw [gone_iff, hone]
    · constructor
      · rintro (hnil | ⟨a', m', heq, hm', hexp⟩)
        · cases hnil
        · obtain rfl := Option.some.inj (List.cons.inj heq).1
          obtain rfl := Option.some.inj (hm.symm.trans hm')
          exact hexp
      · exact fun hexp => .inr ⟨a, m, rfl, hm, hexp⟩
    · intro buf hbuf
      rw [hone] at hbuf
      exact ⟨a, m, List.mem_singleton.mp hbuf, hm⟩
  have hold : AllOlder s now b ↔ m.Older now := by
    unfold AllOlder
    rw [hone]
    constructor
    · exact fun hall => hall a m List.mem_cons_self hm
    · intro holder a' m' ha' hm'
      obtain rfl := Option.some.inj (List.mem_singleton.mp ha')
      obtain rfl := Option.some.inj (hm.symm.trans hm')
      exact holder
  have hclear : Clear s now b ↔ ¬ m.Older now ∧ Int.bmod (m.age now) (2 ^ 32) ≤ m.timeout ∨
      m.Older now ∧ m.timeout < -2 ^ 31 := by
    unfold Clear
    rw [hone]
    constructor
    · rintro (hnil | ⟨a', m', ha', hm', hyoung, hfits⟩ | ⟨a', m', heq, hm', holder, hleast⟩)
      · cases hnil
      · obtain rfl := Option.some.inj (List.mem_singleton.mp ha')
        obtain rfl := Option.some.inj (hm.symm.trans hm')
        exact .inl ⟨hyoung, hfits rfl⟩
      · obtain rfl := Option.some.inj (List.cons.inj heq).1
        obtain rfl := Option.some.inj (hm.symm.trans hm')
        exact .inr ⟨holder, hleast⟩
    · rintro (⟨hyoung, hfits⟩ | ⟨holder, hleast⟩)
      · exact .inr (.inl ⟨a, m, List.mem_cons_self, hm, hyoung, fun _ => hfits⟩)
      · exact .inr (.inr ⟨a, m, rfl, hm, holder, hleast⟩)
  rw [hclear, hold, hgone]
  constructor
  · rintro ⟨hexact, hlater⟩
    by_cases holder : m.Older now
    · refine .inr ⟨holder, ?_⟩
      by_contra hsome
      have hexp := hexact.mpr holder
      have hbound := bmod_le (m.age now)
      obtain ⟨later, hle, hleast⟩ := exists_wrapped m now (by omega)
      have hagain := (hgone later).mp (hlater hexp later hle)
      omega
    · exact .inl ⟨holder, Int.not_lt.mp (mt hexact.mp holder)⟩
  · rintro (⟨hyoung, hfits⟩ | ⟨holder, hleast⟩)
    · have hnot := Int.not_lt.mpr hfits
      exact ⟨iff_of_false hnot hyoung, fun hexp => absurd hexp hnot⟩
    · have hexp : ∀ time, m.timeout < Int.bmod (m.age time) (2 ^ 32) := fun time =>
        Int.lt_of_lt_of_le hleast (bmod_le (m.age time)).1
      exact ⟨iff_of_true (hexp now) holder, fun _ later _ => (hgone later).mpr (hexp later)⟩

/-- One broker is swept as it should be. -/
theorem gone_iff_clear (hlive : ∀ buf ∈ b.messages, ∃ a m, buf = some a ∧ s.heap.cell a = some m) :
    (Gone s now b ↔ AllOlder s now b) ∧ (Gone s now b → ∀ later, now ≤ later → Gone s later b) ↔ Clear s now b := by
  by_cases hnil : b.messages = []
  · have hgone : ∀ time, Gone s time b := fun time => (gone_iff hlive).mpr (.inl hnil)
    have hold : AllOlder s now b := fun a m ha => absurd (hnil ▸ ha) List.not_mem_nil
    exact iff_of_true ⟨iff_of_true (hgone now) hold, fun _ later _ => hgone later⟩ (.inl hnil)
  by_cases hone : b.messages.length = 1
  · obtain ⟨buf, hbuf⟩ := List.length_eq_one_iff.mp hone
    obtain ⟨a, m, rfl, hm⟩ := hlive buf (hbuf ▸ List.mem_cons_self)
    exact gone_iff_clear_one hbuf hm
  -- Of two messages one is always left.
  · have hstays : ∀ time, ¬ Gone s time b := by
      intro time hgone
      rcases (gone_iff hlive).mp hgone with h | ⟨a, m, h, -⟩
      · exact hnil h
      · exact hone (congrArg List.length h)
    have hclear : Clear s now b ↔ ¬ AllOlder s now b := by
      constructor
      · rintro (h | ⟨a, m, ha, hm, hyoung, -⟩ | ⟨a, m, h, -⟩) hall
        · exact hnil h
        · exact hyoung (hall a m ha hm)
        · exact hone (congrArg List.length h)
      · intro hnot
        unfold AllOlder at hnot
        push Not at hnot
        obtain ⟨a, m, ha, hm, hyoung⟩ := hnot
        exact .inr (.inl ⟨a, m, ha, hm, hyoung, fun h => absurd h hone⟩)
    rw [hclear]
    constructor
    · exact fun h hall => hstays now (h.1.mpr hall)
    · exact fun hnot => ⟨iff_of_false (hstays now) hnot, fun hgone => absurd hgone (hstays now)⟩

/-- A sweep does what it should exactly if every broker of the table is clear. -/
theorem sweeps_iff (hs : Listing s) (now : Int) :
    Sweeps s now ↔ ∀ t b, s.brokers.lookup t = some b → Clear s now b := by
  rw [sweeps_iff_gone hs]
  exact forall_congr' fun t => forall_congr' fun b => forall_congr' fun hb => gone_iff_clear (hs.live t b hb)

/-- One broker with two messages of the time zero. -/
def twoMessages : Bifrost :=
  { start (lit "a") (lit "80") with
    heap := (Heap.empty.alloc {}).alloc {}
    brokers := AList.insert 0 ⟨0, [some 0, some 1]⟩ ∅ }

theorem twoMessages_lookup {t : Int} {b : MessageBroker} (h : twoMessages.brokers.lookup t = some b) :
    t = 0 ∧ b = ⟨0, [some 0, some 1]⟩ := by
  by_cases ht : t = 0
  · subst ht
    exact ⟨rfl, (Option.some.inj ((AList.lookup_insert _).symm.trans h)).symm⟩
  · cases (AList.lookup_insert_ne ht).symm.trans h

theorem twoMessages_cell {a : Addr} (ha : some a ∈ [some 0, some 1]) : twoMessages.heap.cell a = some {} := by
  rcases List.mem_pair.mp ha with h | h
  · obtain rfl := Option.some.inj h
    rfl
  · obtain rfl := Option.some.inj h
    rfl

theorem listing_twoMessages : Listing twoMessages where
  live t b hb buf hbuf := by
    obtain ⟨-, rfl⟩ := twoMessages_lookup hb
    rcases List.mem_pair.mp hbuf with rfl | rfl
    · exact ⟨0, {}, rfl, rfl⟩
    · exact ⟨1, {}, rfl, rfl⟩
  apart t t' b b' hne hb hb' := by
    obtain ⟨rfl, -⟩ := twoMessages_lookup hb
    obtain ⟨rfl, -⟩ := twoMessages_lookup hb'
    exact absurd rfl hne
  fnfs a ha := absurd ha List.not_mem_nil
  fnfs_apart a ha := absurd ha List.not_mem_nil
  nodup := List.nodup_nil

theorem sweeps_twoMessages : Sweeps twoMessages 1000 := by
  refine (sweeps_iff listing_twoMessages 1000).mpr fun t b hb => ?_
  obtain ⟨-, rfl⟩ := twoMessages_lookup hb
  exact .inr (.inl ⟨0, {}, List.mem_cons_self, rfl, by decide, by decide⟩)

/-- Six seconds later both messages are too old, and the broker stays. -/
theorem sweeps_late : Listing twoMessages ∧ ¬ Sweeps twoMessages 6000000000 := by
  refine ⟨listing_twoMessages, fun hsweeps => ?_⟩
  have hlookup : twoMessages.brokers.lookup 0 = some ⟨0, [some 0, some 1]⟩ := AList.lookup_insert _
  have hgone := ((sweeps_iff_gone listing_twoMessages _).mp hsweeps 0 _ hlookup).1.mpr fun a m ha hm => by
    obtain rfl := Option.some.inj ((twoMessages_cell ha).symm.trans hm)
    decide
  rcases (gone_iff (listing_twoMessages.live 0 _ hlookup)).mp hgone with h | ⟨a, m, h, -⟩
  · cases h
  · cases h

end Bifrost
end Jericho.Message
