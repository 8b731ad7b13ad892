import SmartNic.Offload.Coordinator

/-!
# The recorded trace and its queue

`param_order` is sorted by steps and has no parameter twice at a step.  What the
two loops of `fetch_sub_module` take off the queue is a front part of it, and
`most_recent_step_id_param_fetched_for` is the last step taken off for each
parameter.
-/

namespace SmartNic.Offload

/-! ## Recording -/

/-- The steps at which a module is fetched, counted from `k`. -/
def fetchedAt : ℕ → List ModuleId → ModuleId → List ℕ
  | _, [], _ => []
  | k, m' :: ms, m =>
      if m' = m then k :: fetchedAt (k + 1) ms m else fetchedAt (k + 1) ms m

/-- `param_order` when the modules have the parameters `params` and the steps are
counted from `k`. -/
def traceFrom (params : ModuleId → List ParamId) :
    ℕ → List ModuleId → List ParamInTrace
  | _, [] => []
  | k, m :: ms => (params m).map (⟨·, k⟩) ++ traceFrom params (k + 1) ms

/-- The parameters of a module in the order of `record_parameters`. -/
def State.recordedParams (cfg : Config) (s : State) (m : ModuleId) :
    List ParamId :=
  (s.iterParams cfg m).dedup.insertionSort (· ≤ ·)

theorem fetchedAt_append (k : ℕ) (ms : List ModuleId) (m : ModuleId) :
    fetchedAt k (ms ++ [m]) =
      Function.update (fetchedAt k ms) m (fetchedAt k ms m ++ [k + ms.length]) := by
  funext m'
  induction ms generalizing k with
  | nil =>
      by_cases hm : m' = m
      · subst hm
        simp [fetchedAt]
      · simp [fetchedAt, hm, Ne.symm hm]
  | cons x ms ih =>
      have hlen : k + 1 + ms.length = k + (x :: ms).length := by
        rw [List.length_cons]
        omega
      have hrest := ih (k + 1)
      rw [hlen] at hrest
      by_cases hm : m' = m
      · subst hm
        rw [Function.update_self] at hrest ⊢
        rw [List.cons_append, fetchedAt, fetchedAt, hrest]
        split_ifs <;> rfl
      · rw [Function.update_of_ne hm] at hrest ⊢
        rw [List.cons_append, fetchedAt, fetchedAt, hrest]

theorem fetchedAt_cons_self (k : ℕ) (m : ModuleId) (ms : List ModuleId) :
    fetchedAt k (m :: ms) m = k :: fetchedAt (k + 1) ms m := by
  rw [fetchedAt, if_pos rfl]

theorem update_fetchedAt (k : ℕ) (m : ModuleId) (ms : List ModuleId) :
    Function.update (fetchedAt k (m :: ms)) m (fetchedAt (k + 1) ms m) =
      fetchedAt (k + 1) ms := by
  funext m'
  by_cases hm : m' = m
  · rw [hm, Function.update_self]
  · rw [Function.update_of_ne hm, fetchedAt, if_neg (Ne.symm hm)]

variable {params : ModuleId → List ParamId} {k : ℕ} {ms : List ModuleId}

theorem traceFrom_append (k : ℕ) (ms ms' : List ModuleId) :
    traceFrom params k (ms ++ ms') =
      traceFrom params k ms ++ traceFrom params (k + ms.length) ms' := by
  induction ms generalizing k with
  | nil => rfl
  | cons m ms ih =>
      have hlen : k + 1 + ms.length = k + (m :: ms).length := by
        rw [List.length_cons]
        omega
      rw [List.cons_append, traceFrom, traceFrom, ih, hlen, List.append_assoc]

/-- What is in the trace. -/
theorem mem_traceFrom {x : ParamInTrace} :
    x ∈ traceFrom params k ms ↔
      ∃ i m, ms[i]? = some m ∧ x.stepIdLastUsedAt = k + i ∧ x.param ∈ params m := by
  induction ms generalizing k with
  | nil => simp [traceFrom]
  | cons m ms ih =>
      rw [traceFrom, List.mem_append, ih, List.mem_map]
      constructor
      · rintro (⟨p, hp, rfl⟩ | ⟨i, m', hget, hstep, hp⟩)
        · exact ⟨0, m, rfl, rfl, hp⟩
        · exact ⟨i + 1, m', hget, by omega, hp⟩
      · rintro ⟨i, m', hget, hstep, hp⟩
        cases i with
        | zero =>
            obtain rfl := Option.some.inj hget
            refine .inl ⟨x.param, hp, ?_⟩
            cases x
            exact congrArg _ hstep.symm
        | succ i => exact .inr ⟨i, m', hget, by omega, hp⟩

/-- The order of the entries: by steps, and no parameter twice at one step. -/
def ParamInTrace.Before (x y : ParamInTrace) : Prop :=
  x.stepIdLastUsedAt ≤ y.stepIdLastUsedAt ∧
    (x.param = y.param → x.stepIdLastUsedAt < y.stepIdLastUsedAt)

theorem traceFrom_sorted (hnodup : ∀ m, (params m).Nodup) (k : ℕ)
    (ms : List ModuleId) :
    (traceFrom params k ms).Pairwise ParamInTrace.Before := by
  induction ms generalizing k with
  | nil => exact List.Pairwise.nil
  | cons m ms ih =>
      rw [traceFrom, List.pairwise_append]
      refine ⟨?_, ih (k + 1), ?_⟩
      · rw [List.pairwise_map]
        refine (hnodup m).imp ?_
        intro p q hne
        exact ⟨le_rfl, fun heq => absurd heq hne⟩
      · intro x hx y hy
        obtain ⟨p, -, rfl⟩ := List.mem_map.mp hx
        obtain ⟨i, m', -, hstep, -⟩ := mem_traceFrom.mp hy
        have hlt : k < y.stepIdLastUsedAt := by omega
        exact ⟨hlt.le, fun _ => hlt⟩

/-! ## Consuming -/

/-- The step of an entry becomes the most recent one of its parameter. -/
def consume (recent : ParamId → ℤ) (x : ParamInTrace) : ParamId → ℤ :=
  Function.update recent x.param x.stepIdLastUsedAt

/-- The most recent steps when the entries `xs` have been taken off. -/
def fetchedFor (xs : List ParamInTrace) : ParamId → ℤ :=
  xs.foldl consume neverFetched

theorem fetchedFor_append (xs : List ParamInTrace) (x : ParamInTrace) :
    fetchedFor (xs ++ [x]) = consume (fetchedFor xs) x := by
  unfold fetchedFor
  rw [List.foldl_append]
  rfl

/-- A consumed entry is not later than the most recent step. -/
theorem le_fetchedFor {xs : List ParamInTrace}
    (hsorted : xs.Pairwise ParamInTrace.Before) {x : ParamInTrace} (hx : x ∈ xs) :
    (x.stepIdLastUsedAt : ℤ) ≤ fetchedFor xs x.param := by
  induction xs using List.reverseRecOn with
  | nil => cases hx
  | append_singleton xs y ih =>
      obtain ⟨hxs, -, hbefore⟩ := List.pairwise_append.mp hsorted
      rw [fetchedFor_append, consume]
      rcases List.mem_append.mp hx with hx | hx
      · by_cases hparam : x.param = y.param
        · rw [hparam, Function.update_self]
          exact_mod_cast (hbefore x hx y (List.mem_singleton_self y)).1
        · rw [Function.update_of_ne hparam]
          exact ih hxs hx
      · obtain rfl := List.mem_singleton.mp hx
        rw [Function.update_self]

/-- An entry that follows the consumed ones is later than the most recent
step. -/
theorem fetchedFor_lt {xs : List ParamInTrace} {x : ParamInTrace}
    (hbefore : ∀ y ∈ xs, y.Before x) :
    fetchedFor xs x.param < x.stepIdLastUsedAt := by
  induction xs using List.reverseRecOn with
  | nil =>
      change (-10000000000 : ℤ) < x.stepIdLastUsedAt
      omega
  | append_singleton xs y ih =>
      rw [fetchedFor_append, consume]
      by_cases hparam : x.param = y.param
      · rw [hparam, Function.update_self]
        have hlt := (hbefore y (by simp)).2 hparam.symm
        exact_mod_cast hlt
      · rw [Function.update_of_ne hparam]
        exact ih fun y hy => hbefore y (List.mem_append_left _ hy)

/-- The first loop takes off the entries of as many parameters as are expected. -/
theorem discardFetched_append {xs ys : List ParamInTrace} {recent : ParamId → ℤ}
    {discarded : Finset ParamId} (hnodup : (xs.map (·.param)).Nodup)
    (hnew : ∀ x ∈ xs, x.param ∉ discarded) :
    State.discardFetched (discarded.card + xs.length) (xs ++ ys) recent discarded =
      (ys, xs.foldl consume recent,
        discarded ∪ (xs.map (·.param)).toFinset) := by
  induction xs generalizing recent discarded with
  | nil =>
      cases ys with
      | nil => simp [State.discardFetched]
      | cons y ys => simp [State.discardFetched]
  | cons x xs ih =>
      obtain ⟨hx, hxs⟩ := List.nodup_cons.mp hnodup
      have hcard : (insert x.param discarded).card = discarded.card + 1 :=
        Finset.card_insert_of_notMem (hnew x List.mem_cons_self)
      have hlen : discarded.card + (x :: xs).length =
          (insert x.param discarded).card + xs.length := by
        rw [hcard, List.length_cons]
        omega
      rw [List.cons_append, State.discardFetched, if_pos (by simp), hlen]
      refine (ih hxs ?_).trans ?_
      · intro y hy hmem
        rcases Finset.mem_insert.mp hmem with heq | hmem
        · exact hx (List.mem_map.mpr ⟨y, hy, heq⟩)
        · exact hnew y (List.mem_cons_of_mem x hy) hmem
      · rw [List.map_cons, List.toFinset_cons, Finset.insert_union,
          ← Finset.union_insert]
        rfl

/-- The second loop takes off a front part of a queue of later entries and
collects parameters of it. -/
theorem collectPrefetch_take (cfg : Config) (s : State) (limit : ℤ)
    {queue : List ParamInTrace} (recent : ParamId → ℤ) (wanted : Finset ParamId)
    (numel : ℕ) (hsorted : queue.Pairwise ParamInTrace.Before)
    (hlater : ∀ x ∈ queue, recent x.param < x.stepIdLastUsedAt) :
    ∃ j, (State.collectPrefetch cfg s limit queue recent wanted numel).1 =
        queue.drop j ∧
      (State.collectPrefetch cfg s limit queue recent wanted numel).2.1 =
        (queue.take j).foldl consume recent ∧
      ∀ p ∈ (State.collectPrefetch cfg s limit queue recent wanted numel).2.2,
        p ∈ wanted ∨ ∃ x ∈ queue, x.param = p := by
  induction queue generalizing recent wanted numel with
  | nil => exact ⟨0, rfl, rfl, fun p hp => .inl hp⟩
  | cons x queue ih =>
      obtain ⟨hx, hqueue⟩ := List.pairwise_cons.mp hsorted
      have hmax : max (recent x.param) (x.stepIdLastUsedAt : ℤ) =
          x.stepIdLastUsedAt :=
        max_eq_right (hlater x List.mem_cons_self).le
      have hlater' : ∀ y ∈ queue, consume recent x y.param < y.stepIdLastUsedAt := by
        intro y hy
        unfold consume
        by_cases hparam : y.param = x.param
        · rw [hparam, Function.update_self]
          exact_mod_cast (hx y hy).2 hparam.symm
        · rw [Function.update_of_ne hparam]
          exact hlater y (List.mem_cons_of_mem x hy)
      unfold State.collectPrefetch
      dsimp only
      rw [hmax]
      split_ifs
      · obtain ⟨j, hdrop, htake, hmem⟩ := ih _ (insert x.param wanted)
          (numel + cfg.dsNumel x.param) hqueue hlater'
        refine ⟨j + 1, hdrop, htake, ?_⟩
        intro p hp
        rcases hmem p hp with hp | ⟨y, hy, rfl⟩
        · rcases Finset.mem_insert.mp hp with rfl | hp
          · exact .inr ⟨x, List.mem_cons_self, rfl⟩
          · exact .inl hp
        · exact .inr ⟨y, List.mem_cons_of_mem x hy, rfl⟩
      · obtain ⟨j, hdrop, htake, hmem⟩ := ih _ wanted numel hqueue hlater'
        refine ⟨j + 1, hdrop, htake, ?_⟩
        intro p hp
        rcases hmem p hp with hp | ⟨y, hy, rfl⟩
        · exact .inl hp
        · exact .inr ⟨y, List.mem_cons_of_mem x hy, rfl⟩
      · exact ⟨0, rfl, rfl, fun p hp => .inl hp⟩

end SmartNic.Offload
