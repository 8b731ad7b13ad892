import SmartNic.Library.Pair
import SmartNic.Setup.CreateRing

/-!
# Matched setups

The MPI calls of the ranks match exactly if the failures before an exchange
strike both partners; then no rank waits in vain.
-/

namespace SmartNic.Setup

open SmartNic.CallTrace
open SmartNic.Collective (nextRank)

attribute [local instance] neZero_two

section Ranks

variable {n : ℕ}

theorem nextRank_prevRank (i : Fin n) : nextRank (prevRank i) = i := by
  apply Fin.ext
  change ((i.val + n - 1) % n + 1) % n = i.val
  have hi := i.isLt
  rcases Nat.eq_zero_or_pos i.val with hzero | hpos
  · rw [hzero, Nat.zero_add, Nat.mod_eq_of_lt (show n - 1 < n by omega),
      Nat.sub_add_cancel (show 1 ≤ n by omega), Nat.mod_self]
  · rw [show i.val + n - 1 = i.val - 1 + n by omega, Nat.add_mod_right,
      Nat.mod_eq_of_lt (show i.val - 1 < n by omega),
      Nat.sub_add_cancel hpos, Nat.mod_eq_of_lt hi]

theorem prevRank_nextRank (i : Fin n) : prevRank (nextRank i) = i :=
  Collective.nextRank_injective (nextRank_prevRank (nextRank i))

theorem prevRank_ne (hn : 2 ≤ n) (i : Fin n) : prevRank i ≠ i := by
  intro h
  have hnext := nextRank_prevRank i
  rw [h] at hnext
  have hval : (i.val + 1) % n = i.val := congrArg Fin.val hnext
  have hi := i.isLt
  rcases Nat.lt_or_ge (i.val + 1) n with hlt | hge
  · rw [Nat.mod_eq_of_lt hlt] at hval
    omega
  · rw [show i.val + 1 = n by omega, Nat.mod_self] at hval
    omega

end Ranks

/-! ## The calls of a rank -/

section Calls

variable {n : ℕ} {rank i : Fin n} {tag : ℕ} {result : RoundResult}

/-- A rank exchanges with its partner in the round unless an earlier step
failed. -/
theorem mem_ringRound (hn : 2 ≤ n) {c : MpiCall n} :
    c ∈ ringRound tag rank i result ↔ result.reaches ∧
      (rank = i ∧ c = .sendrecv (prevRank i) (prevRank i) tag ∨
        rank = prevRank i ∧ c = .sendrecv i i tag) := by
  have hne := prevRank_ne hn i
  unfold ringRound mpiExchangeCmdWithTag RoundResult.reaches
  by_cases hrecv : rank = i
  · subst hrecv
    cases result.init <;> cases result.configureAndStart <;>
      cases result.exported <;> cases result.packed <;>
      cases result.allocated <;> simp [hne.symm]
  · by_cases hsend : rank = prevRank i
    · subst hsend
      cases result.init <;> cases result.configureAndStart <;>
        cases result.exported <;> cases result.packed <;>
        cases result.allocated <;> simp [hne, hne.symm]
    · simp [hrecv, hsend]

theorem ringRound_length_le : (ringRound tag rank i result).length ≤ 1 := by
  unfold ringRound mpiExchangeCmdWithTag
  dsimp only
  split_ifs <;> simp

theorem ringRound_not_collective :
    ∀ c ∈ ringRound tag rank i result, c.isCollective = false := by
  unfold ringRound mpiExchangeCmdWithTag
  dsimp only
  split_ifs <;> simp [Call.isCollective]

variable {result : RankResult n}

theorem connToNext_eq (hn : 2 ≤ n) :
    result.connToNext rank = ((result.ring0 (nextRank rank)).reaches &&
      (result.ring0 (nextRank rank)).answered) := by
  have hne : nextRank rank ≠ rank := by
    intro h
    have hprev := prevRank_nextRank rank
    rw [h] at hprev
    exact prevRank_ne hn rank hprev
  unfold RankResult.connToNext mpiExchangeCmdWithTag RoundResult.reaches
  dsimp only
  generalize result.ring0 (nextRank rank) = round
  obtain ⟨init, configureAndStart, exported, packed, allocated, answered⟩ :=
    round
  cases packed <;> cases allocated <;> simp [hne, hne.symm]

theorem rdbInit_eq (hn : 2 ≤ n) :
    rdbInit rank result =
      if result.reachesRdb rank then
        [.sendrecv (prevRank rank) (nextRank rank) TAG_RDB]
      else [] := by
  unfold rdbInit RankResult.reachesRdb
  rw [connToNext_eq hn]
  by_cases hreaches : (result.ring0 (nextRank rank)).reaches <;>
    by_cases hanswered : (result.ring0 (nextRank rank)).answered <;>
    cases result.rdbDisable <;> cases result.exportMmap <;>
    cases result.exportFits <;> simp [hreaches, hanswered]

theorem setup_not_collective (hn : 2 ≤ n) :
    ∀ xs ∈ rdbInit rank result :: (setupRounds rank result).map Prod.fst,
      ∀ c ∈ xs, c.isCollective = false := by
  intro xs hxs c hc
  rw [List.mem_cons] at hxs
  rcases hxs with rfl | hxs
  · rw [rdbInit_eq hn] at hc
    split at hc
    · rw [List.mem_singleton.mp hc]
      rfl
    · cases hc
  · simp only [setupRounds, List.map_append, List.map_map, List.mem_append,
      List.mem_map] at hxs
    rcases hxs with (⟨i, -, rfl⟩ | ⟨i, -, rfl⟩) | ⟨round, hround, rfl⟩
    · exact ringRound_not_collective c hc
    · exact ringRound_not_collective c hc
    · simp only [List.mem_cons, List.not_mem_nil, or_false] at hround
      rcases hround with rfl | rfl
      · cases hc
      · cases hc

/-- Where an exchange of a rank is: in a round of one of the rings or after the
last collective. -/
theorem at_setup (hn : 2 ≤ n) {k : ℕ} {c : MpiCall n} :
    At (executeDocaCreateRingCmd rank result) k c ↔ result.begins ∧
      ((∃ i : Fin n, k = i ∧
          c ∈ ringRound TAG_EXCHANGE rank i (result.ring0 i)) ∨
        (∃ i : Fin n, k = n + i ∧
          c ∈ ringRound TAG_EXCHANGE_RING1 rank i (result.ring1 i)) ∨
        k = 2 * n + 2 ∧ c ∈ rdbInit rank result) := by
  unfold executeDocaCreateRingCmd RankResult.begins
  cases result.queuesInit with
  | false => simp
  | true =>
    cases result.workingBuf with
    | false => simp
    | true =>
      simp only [Bool.not_true, Bool.false_eq_true, if_false, Bool.and_true,
        true_and]
      unfold At
      rw [segments_ofRounds (setup_not_collective hn)]
      simp only [setupRounds, List.map_append, List.map_map, List.append_assoc,
        List.map_cons, List.map_nil, List.cons_append, List.nil_append]
      rw [List.getElem?_append, List.length_map, List.length_finRange]
      by_cases hring0 : k < n
      · rw [if_pos hring0]
        have hget : ((List.finRange n).map (Prod.fst ∘ fun i =>
            (ringRound TAG_EXCHANGE rank i (result.ring0 i),
              MpiCollective.barrier)))[k]? =
            some (ringRound TAG_EXCHANGE rank ⟨k, hring0⟩
              (result.ring0 ⟨k, hring0⟩)) := by
          simp [hring0]
        rw [hget]
        constructor
        · rintro ⟨xs, hxs, hc⟩
          obtain rfl := Option.some.inj hxs
          exact .inl ⟨⟨k, hring0⟩, rfl, hc⟩
        · rintro (⟨i, rfl, hc⟩ | ⟨i, rfl, -⟩ | ⟨rfl, -⟩)
          · exact ⟨_, rfl, hc⟩
          · omega
          · omega
      · rw [if_neg hring0, List.getElem?_append, List.length_map,
          List.length_finRange]
        by_cases hring1 : k - n < n
        · rw [if_pos hring1]
          have hget : ((List.finRange n).map (Prod.fst ∘ fun i =>
              (ringRound TAG_EXCHANGE_RING1 rank i (result.ring1 i),
                MpiCollective.barrier)))[k - n]? =
              some (ringRound TAG_EXCHANGE_RING1 rank ⟨k - n, hring1⟩
                (result.ring1 ⟨k - n, hring1⟩)) := by
            simp [hring1]
          rw [hget]
          constructor
          · rintro ⟨xs, hxs, hc⟩
            obtain rfl := Option.some.inj hxs
            refine .inr (.inl ⟨⟨k - n, hring1⟩, ?_, hc⟩)
            change k = n + (k - n)
            omega
          · rintro (⟨i, rfl, -⟩ | ⟨i, rfl, hc⟩ | ⟨rfl, -⟩)
            · exact absurd i.isLt hring0
            · refine ⟨_, rfl, ?_⟩
              have hi : (⟨n + i - n, hring1⟩ : Fin n) = i :=
                Fin.ext (Nat.add_sub_cancel_left n i)
              rw [hi]
              exact hc
            · omega
        · rw [if_neg hring1]
          constructor
          · rintro ⟨xs, hxs, hc⟩
            match hk : k - n - n with
            | 0 | 1 =>
                rw [hk] at hxs
                obtain rfl := Option.some.inj hxs
                cases hc
            | 2 =>
                rw [hk] at hxs
                obtain rfl := Option.some.inj hxs
                exact .inr (.inr ⟨by omega, hc⟩)
            | m + 3 =>
                rw [hk] at hxs
                cases hxs
          · rintro (⟨i, rfl, -⟩ | ⟨i, rfl, -⟩ | ⟨rfl, hc⟩)
            · exact absurd i.isLt hring0
            · omega
            · refine ⟨_, ?_, hc⟩
              rw [show 2 * n + 2 - n - n = 2 by omega]
              rfl

theorem setup_short (hn : 2 ≤ n) :
    Short (executeDocaCreateRingCmd rank result) := by
  unfold executeDocaCreateRingCmd
  split
  · simp [Short]
  · split
    · simp [Short]
    · unfold Short
      rw [segments_ofRounds (setup_not_collective hn)]
      intro xs hxs
      simp only [setupRounds, List.map_append, List.map_map, List.mem_append,
        List.mem_map, List.mem_singleton] at hxs
      rcases hxs with ((⟨i, -, rfl⟩ | ⟨i, -, rfl⟩) | ⟨round, hround, rfl⟩) | rfl
      · exact ringRound_length_le
      · exact ringRound_length_le
      · simp only [List.mem_cons, List.not_mem_nil, or_false] at hround
        rcases hround with rfl | rfl
        · exact Nat.zero_le 1
        · exact Nat.zero_le 1
      · rw [rdbInit_eq hn]
        split <;> simp

/-- All ranks that begin make the same collectives, the others none. -/
theorem collectives_setup (hn : 2 ≤ n) :
    collectives (executeDocaCreateRingCmd rank result) =
      if result.begins then
        (List.replicate (2 * n) MpiCollective.barrier ++
          [MpiCollective.commDup, MpiCollective.commDup]).map Call.collective
      else [] := by
  unfold executeDocaCreateRingCmd RankResult.begins
  cases result.queuesInit with
  | false => rfl
  | true =>
    cases result.workingBuf with
    | false => rfl
    | true =>
      simp only [Bool.not_true, Bool.false_eq_true, if_false, Bool.and_true,
        if_true]
      rw [collectives_ofRounds (setup_not_collective hn)]
      simp [setupRounds, Function.comp_def, Nat.two_mul,
        ← List.replicate_append_replicate]

end Calls

/-! ## Matched and paired -/

section Setup

variable {n : ℕ} {results : Fin n → RankResult n}

theorem mem_rdbInit (hn : 2 ≤ n) {rank : Fin n} {c : MpiCall n} :
    c ∈ rdbInit rank (results rank) ↔ (results rank).reachesRdb rank ∧
      c = .sendrecv (prevRank rank) (nextRank rank) TAG_RDB := by
  rw [rdbInit_eq hn]
  split
  next h => simp [h]
  next h => simp [h]

/-- The exchange of a round is where it is on both partners. -/
theorem at_ring0 (hn : 2 ≤ n) {r i : Fin n} {dest src : Fin n} {tag : ℕ} :
    At (setupTrace results r) i (.sendrecv dest src tag) ↔
      (results r).begins ∧ .sendrecv dest src tag ∈
        ringRound TAG_EXCHANGE r i ((results r).ring0 i) := by
  refine (at_setup hn).trans (and_congr_right fun _ => ?_)
  constructor
  · rintro (⟨j, hj, hc⟩ | ⟨j, hj, -⟩ | ⟨hk, -⟩)
    · obtain rfl := Fin.ext hj
      exact hc
    · have hi := i.isLt
      omega
    · have hi := i.isLt
      omega
  · exact fun hc => .inl ⟨i, rfl, hc⟩

theorem at_ring1 (hn : 2 ≤ n) {r i : Fin n} {dest src : Fin n} {tag : ℕ} :
    At (setupTrace results r) (n + i) (.sendrecv dest src tag) ↔
      (results r).begins ∧ .sendrecv dest src tag ∈
        ringRound TAG_EXCHANGE_RING1 r i ((results r).ring1 i) := by
  refine (at_setup hn).trans (and_congr_right fun _ => ?_)
  constructor
  · rintro (⟨j, hj, -⟩ | ⟨j, hj, hc⟩ | ⟨hk, -⟩)
    · have hlt := j.isLt
      omega
    · obtain rfl := Fin.ext (Nat.add_left_cancel hj)
      exact hc
    · have hi := i.isLt
      omega
  · exact fun hc => .inr (.inl ⟨i, rfl, hc⟩)

theorem at_rdb (hn : 2 ≤ n) {r : Fin n} {dest src : Fin n} {tag : ℕ} :
    At (setupTrace results r) (2 * n + 2) (.sendrecv dest src tag) ↔
      (results r).begins ∧ (results r).reachesRdb r ∧
        (.sendrecv dest src tag : MpiCall n) =
          .sendrecv (prevRank r) (nextRank r) TAG_RDB := by
  refine (at_setup hn).trans (and_congr_right fun _ => ?_)
  rw [mem_rdbInit hn]
  constructor
  · rintro (⟨j, hj, -⟩ | ⟨j, hj, -⟩ | ⟨-, hc⟩)
    · have hlt := j.isLt
      omega
    · have hlt := j.isLt
      omega
    · exact hc
  · exact fun hc => .inr (.inr ⟨rfl, hc⟩)

theorem begins_of_at (hn : 2 ≤ n) {r : Fin n} {k : ℕ} {c : MpiCall n}
    (h : At (setupTrace results r) k c) : (results r).begins :=
  ((at_setup hn).mp h).1

/-- If both ends of a round make their exchange or none does, an exchange of the
round is answered. -/
theorem answered_of_round {tag : ℕ} (round : Fin n → RoundResult) (hn : 2 ≤ n)
    {i : Fin n}
    (hsame : (round i).reaches = (round (prevRank i)).reaches)
    {r dest src : Fin n} {t : ℕ}
    (h : (.sendrecv dest src t : MpiCall n) ∈ ringRound tag r i (round r)) :
    dest = src ∧ (.sendrecv r r t : MpiCall n) ∈
      ringRound tag dest i (round dest) := by
  obtain ⟨hreaches, ⟨rfl, hc⟩ | ⟨rfl, hc⟩⟩ := (mem_ringRound hn).mp h
  · obtain ⟨rfl, rfl, rfl⟩ := Call.sendrecv.inj hc
    exact ⟨rfl, (mem_ringRound hn).mpr
      ⟨hsame.symm.trans hreaches, .inr ⟨rfl, rfl⟩⟩⟩
  · obtain ⟨rfl, rfl, rfl⟩ := Call.sendrecv.inj hc
    exact ⟨rfl, (mem_ringRound hn).mpr
      ⟨hsame.trans hreaches, .inl ⟨rfl, rfl⟩⟩⟩

/-- If an exchange of the round is answered, both ends make it or none does. -/
theorem reaches_of_answered (tag : ℕ) (round : Fin n → RoundResult) (hn : 2 ≤ n)
    {i : Fin n}
    (h : ∀ r dest, (.sendrecv dest dest tag : MpiCall n) ∈
        ringRound tag r i (round r) →
      ∃ src, (.sendrecv src r tag : MpiCall n) ∈
        ringRound tag dest i (round dest)) :
    (round i).reaches = (round (prevRank i)).reaches := by
  rw [Bool.eq_iff_iff]
  constructor
  · intro hreaches
    obtain ⟨src, hsrc⟩ := h i (prevRank i)
      ((mem_ringRound hn).mpr ⟨hreaches, .inl ⟨rfl, rfl⟩⟩)
    exact ((mem_ringRound hn).mp hsrc).1
  · intro hreaches
    obtain ⟨src, hsrc⟩ := h (prevRank i) i
      ((mem_ringRound hn).mpr ⟨hreaches, .inr ⟨rfl, rfl⟩⟩)
    exact ((mem_ringRound hn).mp hsrc).1

theorem Paired.matched (hn : 2 ≤ n) (h : Paired results) :
    Matched (setupTrace results) := by
  have hall : ∀ {r k c}, At (setupTrace results r) k c →
      ∀ q, (results q).begins := by
    intro r k c hat q
    rw [← h.begins r q]
    exact begins_of_at hn hat
  have hanswer : ∀ r k dest src tag,
      At (setupTrace results r) k (.sendrecv dest src tag) →
      (∃ src', At (setupTrace results dest) k (.sendrecv src' r tag)) ∧
        ∃ dest', At (setupTrace results src) k (.sendrecv r dest' tag) := by
    intro r k dest src tag hat
    have hbegins := hall hat
    rcases ((at_setup hn).mp hat).2 with ⟨i, rfl, hc⟩ | ⟨i, rfl, hc⟩ | ⟨rfl, hc⟩
    · obtain ⟨rfl, hpartner⟩ := answered_of_round
        (fun q => (results q).ring0 i) hn (h.ring0 hbegins i) hc
      have hat' := (at_ring0 hn).mpr ⟨hbegins dest, hpartner⟩
      exact ⟨⟨r, hat'⟩, ⟨r, hat'⟩⟩
    · obtain ⟨rfl, hpartner⟩ := answered_of_round
        (fun q => (results q).ring1 i) hn (h.ring1 hbegins i) hc
      have hat' := (at_ring1 hn).mpr ⟨hbegins dest, hpartner⟩
      exact ⟨⟨r, hat'⟩, ⟨r, hat'⟩⟩
    · obtain ⟨hreaches, hcall⟩ := (mem_rdbInit hn).mp hc
      obtain ⟨rfl, rfl, rfl⟩ := Call.sendrecv.inj hcall
      have hprev := h.rdb hbegins (prevRank r)
      rw [nextRank_prevRank] at hprev
      refine ⟨⟨prevRank (prevRank r), (at_rdb hn).mpr
        ⟨hbegins _, hprev.trans hreaches, by rw [nextRank_prevRank]⟩⟩,
        ⟨nextRank (nextRank r), (at_rdb hn).mpr
          ⟨hbegins _, (h.rdb hbegins r).symm.trans hreaches,
            by rw [prevRank_nextRank]⟩⟩⟩
  constructor
  · intro r q
    unfold setupTrace
    rw [collectives_setup hn, collectives_setup hn, h.begins r q]
  · exact fun r k dest src tag hat => (hanswer r k dest src tag hat).1
  · exact fun r k dest src tag hat => (hanswer r k dest src tag hat).2

theorem paired_of_matched (hn : 2 ≤ n) (h : Matched (setupTrace results)) :
    Paired results := by
  constructor
  · intro r q
    have hsame := h.sameCollectives r q
    unfold setupTrace at hsame
    rw [collectives_setup hn, collectives_setup hn] at hsame
    cases hr : (results r).begins <;> cases hq : (results q).begins <;>
      simp_all
  · intro hbegins i
    refine reaches_of_answered TAG_EXCHANGE
      (fun q => (results q).ring0 i) hn ?_
    intro r dest hc
    obtain ⟨src', hat⟩ := h.received r i dest dest TAG_EXCHANGE
      ((at_ring0 hn).mpr ⟨hbegins r, hc⟩)
    exact ⟨src', ((at_ring0 hn).mp hat).2⟩
  · intro hbegins i
    refine reaches_of_answered TAG_EXCHANGE_RING1
      (fun q => (results q).ring1 i) hn ?_
    intro r dest hc
    obtain ⟨src', hat⟩ := h.received r (n + i) dest dest TAG_EXCHANGE_RING1
      ((at_ring1 hn).mpr ⟨hbegins r, hc⟩)
    exact ⟨src', ((at_ring1 hn).mp hat).2⟩
  · intro hbegins r
    rw [Bool.eq_iff_iff]
    constructor
    · intro hreaches
      obtain ⟨dest', hat⟩ := h.sent r (2 * n + 2) (prevRank r) (nextRank r)
        TAG_RDB ((at_rdb hn).mpr ⟨hbegins r, hreaches, rfl⟩)
      exact ((at_rdb hn).mp hat).2.1
    · intro hreaches
      obtain ⟨src', hat⟩ := h.received (nextRank r) (2 * n + 2)
        (prevRank (nextRank r)) (nextRank (nextRank r)) TAG_RDB
        ((at_rdb hn).mpr ⟨hbegins _, hreaches, rfl⟩)
      rw [prevRank_nextRank] at hat
      exact ((at_rdb hn).mp hat).2.1

end Setup

/-- The MPI calls of the setup match, and no rank waits for a call that another
one skipped, exactly if the failures before an exchange strike both partners. -/
theorem setup_matched_iff (n : ℕ) (hn : 2 ≤ n)
    (results : Fin n → RankResult n) :
    (Matched (setupTrace results) ∧ NeverStuck (setupTrace results)) ↔
      Paired results := by
  constructor
  · rintro ⟨hmatched, -⟩
    exact paired_of_matched hn hmatched
  · intro hpaired
    have hmatched := hpaired.matched hn
    exact ⟨hmatched, hmatched.neverStuck fun _ => setup_short hn⟩

/-- Everything succeeds. -/
def flawless : RankResult 2 where
  queuesInit := true
  workingBuf := true
  ring0 := fun _ => ⟨true, true, true, true, true, true⟩
  ring1 := fun _ => ⟨true, true, true, true, true, true⟩
  rdbDisable := false
  exportMmap := true
  exportFits := true

theorem setup_matched_iff_flawless :
    (Matched (setupTrace fun _ : Fin 2 => flawless) ∧
        NeverStuck (setupTrace fun _ : Fin 2 => flawless)) ↔
      Paired fun _ : Fin 2 => flawless :=
  setup_matched_iff 2 (by decide) fun _ => flawless

/-- `rdb_init` of rank 0 cannot export its memory. -/
def exportFails (r : Fin 2) : RankResult 2 :=
  { flawless with exportMmap := r ≠ 0 }

/-- Rank 1 waits in the exchange of `rdb_init`, which rank 0 skips. -/
theorem lone_export_failure_unmatched :
    ¬ (Matched (setupTrace exportFails) ∧
      NeverStuck (setupTrace exportFails)) := by
  rintro ⟨hmatched, -⟩
  have hat : At (setupTrace exportFails 1) 6
      (.sendrecv (prevRank 1) (nextRank 1) TAG_RDB) :=
    (at_rdb (by decide)).mpr ⟨rfl, rfl, rfl⟩
  obtain ⟨src, hanswer⟩ := hmatched.received 1 6 _ _ _ hat
  exact absurd ((at_rdb (by decide)).mp hanswer).2.1 (by decide)

end SmartNic.Setup
