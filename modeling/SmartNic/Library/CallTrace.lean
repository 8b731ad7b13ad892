import Mathlib.Data.List.Basic
import Mathlib.Data.Set.Basic
import Mathlib.Logic.Relation

/-!
# Traces of blocking calls

Members of a group make collective calls, in which all take part, and exchanges,
in which a member sends to one member and receives from another.  The traces
are matched if the collectives are the same for all and every exchange is
answered before the next collective.  If there is at most one exchange between
two collectives, matched traces can always go on.
-/

namespace SmartNic.CallTrace

inductive Call (ι K T : Type) where
  | collective (kind : K)
  | sendrecv (dest src : ι) (tag : T)
deriving DecidableEq, Repr

variable {ι K T : Type}

def Call.isCollective : Call ι K T → Bool
  | .collective _ => true
  | .sendrecv _ _ _ => false

/-- The exchanges between the collectives. -/
def segments (calls : List (Call ι K T)) : List (List (Call ι K T)) :=
  calls.splitOnP Call.isCollective

def collectives (calls : List (Call ι K T)) : List (Call ι K T) :=
  calls.filter Call.isCollective

/-- In segment `k` of its trace a member makes a call. -/
def At (calls : List (Call ι K T)) (k : ℕ) (call : Call ι K T) : Prop :=
  ∃ xs, (segments calls)[k]? = some xs ∧ call ∈ xs

structure Matched (trace : ι → List (Call ι K T)) : Prop where
  sameCollectives : ∀ r q, collectives (trace r) = collectives (trace q)
  received : ∀ r k dest src tag, At (trace r) k (.sendrecv dest src tag) →
    ∃ src', At (trace dest) k (.sendrecv src' r tag)
  sent : ∀ r k dest src tag, At (trace r) k (.sendrecv dest src tag) →
    ∃ dest', At (trace src) k (.sendrecv r dest' tag)

/-- At most one exchange between two collectives. -/
def Short (calls : List (Call ι K T)) : Prop :=
  ∀ xs ∈ segments calls, xs.length ≤ 1

/-! ## Segments -/

section Segments

variable {calls : List (Call ι K T)} {call c : Call ι K T} {k : ℕ}

@[simp]
theorem segments_nil : segments ([] : List (Call ι K T)) = [[]] := by
  simp [segments]

@[simp]
theorem segments_collective (kind : K) :
    segments (.collective kind :: calls) = [] :: segments calls := by
  simp [segments, List.splitOnP_cons_eq_if_modifyHead, Call.isCollective]

@[simp]
theorem segments_sendrecv (dest src : ι) (tag : T) :
    segments (.sendrecv dest src tag :: calls) =
      (segments calls).modifyHead (List.cons (.sendrecv dest src tag)) := by
  simp [segments, List.splitOnP_cons_eq_if_modifyHead, Call.isCollective]

theorem exists_segments_cons (calls : List (Call ι K T)) :
    ∃ xs rest, segments calls = xs :: rest :=
  List.exists_cons_of_ne_nil (List.splitOnP_ne_nil _ _)

@[simp]
theorem not_at_nil : ¬ At ([] : List (Call ι K T)) k c := by
  rintro ⟨xs, hxs, hc⟩
  rw [segments_nil] at hxs
  cases k with
  | zero =>
      obtain rfl := Option.some.inj hxs
      cases hc
  | succ k => cases hxs

@[simp]
theorem not_at_collective_zero (kind : K) :
    ¬ At (.collective kind :: calls) 0 c := by
  rintro ⟨xs, hxs, hc⟩
  rw [segments_collective] at hxs
  obtain rfl := Option.some.inj hxs
  cases hc

@[simp]
theorem at_collective_succ (kind : K) :
    At (.collective kind :: calls) (k + 1) c ↔ At calls k c := by
  unfold At
  rw [segments_collective, List.getElem?_cons_succ]

theorem at_sendrecv_zero (dest src : ι) (tag : T) :
    At (.sendrecv dest src tag :: calls) 0 c ↔
      c = .sendrecv dest src tag ∨ At calls 0 c := by
  obtain ⟨xs, rest, hseg⟩ := exists_segments_cons calls
  simp [At, hseg]

@[simp]
theorem at_sendrecv_succ (dest src : ι) (tag : T) :
    At (.sendrecv dest src tag :: calls) (k + 1) c ↔ At calls (k + 1) c := by
  obtain ⟨xs, rest, hseg⟩ := exists_segments_cons calls
  simp [At, hseg]

theorem Short.tail_collective {kind : K}
    (h : Short (.collective kind :: calls)) : Short calls := by
  intro xs hxs
  refine h xs ?_
  rw [segments_collective]
  exact List.mem_cons_of_mem _ hxs

theorem Short.sendrecv {dest src : ι} {tag : T}
    (h : Short (.sendrecv dest src tag :: calls)) :
    Short calls ∧ ∀ c, ¬ At calls 0 c := by
  obtain ⟨xs, rest, hseg⟩ := exists_segments_cons calls
  unfold Short at h
  rw [segments_sendrecv, hseg, List.modifyHead_cons, List.forall_mem_cons] at h
  obtain ⟨hhead, hrest⟩ := h
  have hnil : xs = [] := List.length_eq_zero_iff.mp (by simpa using hhead)
  subst hnil
  constructor
  · intro ys hys
    rw [hseg, List.mem_cons] at hys
    rcases hys with rfl | hys
    · simp
    · exact hrest ys hys
  · rintro c ⟨ys, hys, hc⟩
    rw [hseg] at hys
    obtain rfl := Option.some.inj hys
    cases hc

/-- A trace is empty or starts with a collective or an exchange. -/
theorem trace_cases (calls : List (Call ι K T)) :
    calls = [] ∨ (∃ kind rest, calls = .collective kind :: rest) ∨
      ∃ dest src tag rest, calls = .sendrecv dest src tag :: rest := by
  match calls with
  | [] => exact .inl rfl
  | .collective kind :: rest => exact .inr (.inl ⟨kind, rest, rfl⟩)
  | .sendrecv dest src tag :: rest =>
      exact .inr (.inr ⟨dest, src, tag, rest, rfl⟩)

/-- In a short trace an exchange of the first segment is the next call. -/
theorem Short.eq_of_at (h : Short calls) {dest src : ι} {tag : T}
    (hat : At calls 0 (.sendrecv dest src tag)) :
    ∃ rest, calls = .sendrecv dest src tag :: rest := by
  rcases trace_cases calls with rfl | ⟨kind, rest, rfl⟩ |
    ⟨dest', src', tag', rest, rfl⟩
  · exact absurd hat not_at_nil
  · exact absurd hat (not_at_collective_zero kind)
  · rcases (at_sendrecv_zero dest' src' tag').mp hat with heq | hrest
    · exact ⟨rest, by rw [heq]⟩
    · exact absurd hrest (h.sendrecv.2 _)

end Segments

/-! ## Matched traces go on -/

/-- A collective is left when all members have reached it; members whose next
exchanges answer each other make them. -/
inductive Advance (s s' : ι → List (Call ι K T)) : Prop where
  | collective (kind : K) (h : ∀ r, s r = .collective kind :: s' r)
  | exchange (S : Set ι) (hne : S.Nonempty)
      (hin : ∀ r ∈ S, ∃ dest src tag, s r = .sendrecv dest src tag :: s' r ∧
        (dest ∈ S ∧ ∃ src' rest, s dest = .sendrecv src' r tag :: rest) ∧
        src ∈ S ∧ ∃ dest' rest, s src = .sendrecv r dest' tag :: rest)
      (hout : ∀ r, r ∉ S → s' r = s r)

/-- Whatever has been done, all calls are made or some can be. -/
def NeverStuck (trace : ι → List (Call ι K T)) : Prop :=
  ∀ s, Relation.ReflTransGen Advance trace s →
    (∀ r, s r = []) ∨ ∃ s', Advance s s'

section Progress

variable {s s' : ι → List (Call ι K T)}

theorem collectives_sendrecv (dest src : ι) (tag : T)
    (calls : List (Call ι K T)) :
    collectives (.sendrecv dest src tag :: calls) = collectives calls :=
  List.filter_cons_of_neg (by simp [Call.isCollective])

theorem collectives_collective (kind : K) (calls : List (Call ι K T)) :
    collectives (.collective kind :: calls) =
      .collective kind :: collectives calls :=
  List.filter_cons_of_pos rfl

/-- The next call is an exchange. -/
def startsExchange : List (Call ι K T) → Bool
  | .sendrecv _ _ _ :: _ => true
  | _ => false

theorem exists_of_startsExchange {calls : List (Call ι K T)}
    (h : startsExchange calls = true) :
    ∃ dest src tag rest, calls = .sendrecv dest src tag :: rest := by
  rcases trace_cases calls with rfl | ⟨kind, rest, rfl⟩ | hex
  · cases h
  · cases h
  · exact hex

/-- If no next call is an exchange, all make the same collective. -/
theorem Matched.collective (h : Matched s)
    (hnone : ∀ r, startsExchange (s r) = false) {r : ι} (hr : s r ≠ []) :
    ∃ kind, ∀ q, s q = .collective kind :: (s q).tail := by
  have hcases : ∀ q, s q = [] ∨ ∃ kind rest, s q = .collective kind :: rest := by
    intro q
    rcases trace_cases (s q) with hq | hq | ⟨dest, src, tag, rest, hq⟩
    · exact .inl hq
    · exact .inr hq
    · have hfalse := hnone q
      rw [hq] at hfalse
      cases hfalse
  rcases hcases r with hnil | ⟨kind, rest, hcall⟩
  · exact absurd hnil hr
  · refine ⟨kind, ?_⟩
    intro q
    have hsame := h.sameCollectives r q
    rw [hcall, collectives_collective] at hsame
    rcases hcases q with hnil | ⟨kind', rest', hcall'⟩
    · rw [hnil] at hsame
      cases hsame
    · rw [hcall', collectives_collective] at hsame
      rw [(Call.collective.inj (List.cons.inj hsame).1), hcall']
      rfl

theorem Matched.advance (h : Matched s) (hshort : ∀ r, Short (s r)) :
    (∀ r, s r = []) ∨ ∃ s', Advance s s' := by
  by_cases hex : ∃ r, startsExchange (s r) = true
  · right
    refine ⟨fun r => if startsExchange (s r) then (s r).tail else s r,
      .exchange {r | startsExchange (s r) = true} hex ?_ ?_⟩
    · intro r hr
      change startsExchange (s r) = true at hr
      obtain ⟨dest, src, tag, rest, hcall⟩ := exists_of_startsExchange hr
      have hat : At (s r) 0 (.sendrecv dest src tag) := by
        rw [hcall]
        exact (at_sendrecv_zero dest src tag).mpr (.inl rfl)
      obtain ⟨src', hdest⟩ := h.received r 0 dest src tag hat
      obtain ⟨rest', hdest⟩ := (hshort dest).eq_of_at hdest
      obtain ⟨dest', hsrc⟩ := h.sent r 0 dest src tag hat
      obtain ⟨rest'', hsrc⟩ := (hshort src).eq_of_at hsrc
      refine ⟨dest, src, tag, ?_, ⟨?_, src', rest', hdest⟩, ?_, dest', rest'',
        hsrc⟩
      · rw [if_pos hr, hcall]
        rfl
      · change startsExchange (s dest) = true
        rw [hdest]
        rfl
      · change startsExchange (s src) = true
        rw [hsrc]
        rfl
    · intro r hr
      exact if_neg hr
  · by_cases hnil : ∀ r, s r = []
    · exact .inl hnil
    · right
      push Not at hnil
      obtain ⟨r, hr⟩ := hnil
      obtain ⟨kind, hall⟩ := h.collective (by simpa using hex) hr
      exact ⟨fun q => (s q).tail, .collective kind hall⟩

/-- What an exchange of the members in `S` leaves of the traces. -/
theorem at_exchange (hshort : ∀ r, Short (s r)) {S : Set ι}
    (hin : ∀ r ∈ S, ∃ dest src tag, s r = .sendrecv dest src tag :: s' r)
    (hout : ∀ r, r ∉ S → s' r = s r) (r : ι) (k : ℕ) (c : Call ι K T) :
    At (s' r) k c ↔ At (s r) k c ∧ (k = 0 → r ∉ S) := by
  by_cases hr : r ∈ S
  · obtain ⟨dest, src, tag, hcall⟩ := hin r hr
    have hempty := (hcall ▸ hshort r).sendrecv.2
    rw [hcall]
    cases k with
    | zero => simp [hempty, hr]
    | succ k => simp
  · rw [hout r hr]
    simp [hr]

theorem Matched.step (h : Matched s) (hshort : ∀ r, Short (s r))
    (hadv : Advance s s') : Matched s' ∧ ∀ r, Short (s' r) := by
  cases hadv with
  | collective kind hall =>
      have hat : ∀ r k c, At (s' r) k c ↔ At (s r) (k + 1) c := by
        intro r k c
        rw [hall r, at_collective_succ]
      refine ⟨⟨?_, ?_, ?_⟩, ?_⟩
      · intro r q
        have hsame := h.sameCollectives r q
        rw [hall r, hall q, collectives_collective, collectives_collective]
          at hsame
        exact (List.cons.inj hsame).2
      · intro r k dest src tag hr
        obtain ⟨src', hdest⟩ :=
          h.received r (k + 1) dest src tag ((hat r k _).mp hr)
        exact ⟨src', (hat dest k _).mpr hdest⟩
      · intro r k dest src tag hr
        obtain ⟨dest', hsrc⟩ :=
          h.sent r (k + 1) dest src tag ((hat r k _).mp hr)
        exact ⟨dest', (hat src k _).mpr hsrc⟩
      · intro r
        exact (hall r ▸ hshort r).tail_collective
  | exchange S hne hin hout =>
      have hcall : ∀ r ∈ S, ∃ dest src tag,
          s r = .sendrecv dest src tag :: s' r := by
        intro r hr
        obtain ⟨dest, src, tag, hcall, -⟩ := hin r hr
        exact ⟨dest, src, tag, hcall⟩
      have hat := at_exchange hshort hcall hout
      have hcollectives : ∀ r, collectives (s' r) = collectives (s r) := by
        intro r
        by_cases hr : r ∈ S
        · obtain ⟨dest, src, tag, hcall⟩ := hcall r hr
          rw [hcall, collectives_sendrecv]
        · rw [hout r hr]
      have hclosed : ∀ r ∈ S, ∀ dest src tag,
          At (s r) 0 (.sendrecv dest src tag) → dest ∈ S ∧ src ∈ S := by
        intro r hr dest src tag hat
        obtain ⟨dest', src', tag', hcall, ⟨hdest, -⟩, hsrc, -⟩ := hin r hr
        obtain ⟨rest, hcall'⟩ := (hshort r).eq_of_at hat
        rw [hcall] at hcall'
        obtain ⟨rfl, rfl, -⟩ := Call.sendrecv.inj (List.cons.inj hcall').1
        exact ⟨hdest, hsrc⟩
      refine ⟨⟨?_, ?_, ?_⟩, ?_⟩
      · intro r q
        rw [hcollectives, hcollectives]
        exact h.sameCollectives r q
      · intro r k dest src tag hr
        obtain ⟨hr, hout⟩ := (hat r k _).mp hr
        obtain ⟨src', hdest⟩ := h.received r k dest src tag hr
        refine ⟨src', (hat dest k _).mpr ⟨hdest, ?_⟩⟩
        rintro rfl hmem
        exact hout rfl (hclosed dest hmem src' r tag hdest).2
      · intro r k dest src tag hr
        obtain ⟨hr, hout⟩ := (hat r k _).mp hr
        obtain ⟨dest', hsrc⟩ := h.sent r k dest src tag hr
        refine ⟨dest', (hat src k _).mpr ⟨hsrc, ?_⟩⟩
        rintro rfl hmem
        exact hout rfl (hclosed src hmem r dest' tag hsrc).1
      · intro r
        by_cases hr : r ∈ S
        · obtain ⟨dest, src, tag, hcall⟩ := hcall r hr
          exact (hcall ▸ hshort r).sendrecv.1
        · rw [hout r hr]
          exact hshort r

/-- Matched traces never get stuck. -/
theorem Matched.neverStuck {trace : ι → List (Call ι K T)} (h : Matched trace)
    (hshort : ∀ r, Short (trace r)) : NeverStuck trace := by
  intro s hsteps
  have hmatched : Matched s ∧ ∀ r, Short (s r) := by
    induction hsteps with
    | refl => exact ⟨h, hshort⟩
    | tail _ hadv ih => exact ih.1.step ih.2 hadv
  exact hmatched.1.advance hmatched.2

end Progress

/-! ## Traces made of rounds -/

/-- Rounds of exchanges that each end with a collective, and what follows. -/
def ofRounds (rounds : List (List (Call ι K T) × K))
    (last : List (Call ι K T)) : List (Call ι K T) :=
  rounds.foldr (fun round rest => round.1 ++ .collective round.2 :: rest) last

theorem segments_ofRounds {rounds : List (List (Call ι K T) × K)}
    {last : List (Call ι K T)}
    (h : ∀ xs ∈ last :: rounds.map Prod.fst, ∀ c ∈ xs, c.isCollective = false) :
    segments (ofRounds rounds last) = rounds.map Prod.fst ++ [last] := by
  induction rounds with
  | nil => exact List.splitOnP_eq_singleton (h last (by simp))
  | cons round rounds ih =>
      have hround := h round.1 (by simp)
      have hrest : ∀ xs ∈ last :: rounds.map Prod.fst, ∀ c ∈ xs,
          c.isCollective = false := by
        intro xs hxs
        refine h xs ?_
        rcases List.mem_cons.mp hxs with rfl | hxs
        · simp
        · simp [hxs]
      rw [List.map_cons, List.cons_append, ← ih hrest]
      exact List.splitOnP_append_cons_of_forall_mem hround _ rfl _

theorem collectives_ofRounds {rounds : List (List (Call ι K T) × K)}
    {last : List (Call ι K T)}
    (h : ∀ xs ∈ last :: rounds.map Prod.fst, ∀ c ∈ xs, c.isCollective = false) :
    collectives (ofRounds rounds last) =
      rounds.map fun round => .collective round.2 := by
  have hnone : ∀ xs ∈ last :: rounds.map Prod.fst,
      xs.filter Call.isCollective = [] := by
    intro xs hxs
    rw [List.filter_eq_nil_iff]
    intro c hc
    rw [h xs hxs c hc]
    decide
  induction rounds with
  | nil => exact hnone last (by simp)
  | cons round rounds ih =>
      have htail : ∀ xs ∈ last :: rounds.map Prod.fst,
          xs ∈ last :: (round :: rounds).map Prod.fst := by
        intro xs hxs
        rcases List.mem_cons.mp hxs with rfl | hxs
        · simp
        · simp [hxs]
      have hrest := ih (fun xs hxs => h xs (htail xs hxs))
        fun xs hxs => hnone xs (htail xs hxs)
      have hround := hnone round.1 (by simp)
      unfold ofRounds collectives at *
      rw [List.foldr_cons, List.filter_append, hround, List.nil_append,
        List.filter_cons_of_pos rfl, hrest]
      rfl

end SmartNic.CallTrace
