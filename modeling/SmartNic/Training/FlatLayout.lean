import SmartNic.Training.FlatGroups

/-!
# One layout

The flat fp16 buffers, the fp32 buffers, `grad_position` and the unflattened
parameters are laid out alike: the sub-groups tile the buffers of the groups, and
the parameters of a sub-group tile it.
-/

namespace SmartNic.Training

open Ranges Tiling

/-! ## Sub-groups -/

namespace GroupConfig

variable (cfg : GroupConfig)

theorem partitionNumel_pos {p : ℕ} (h : 0 < cfg.dsNumel p) :
    0 < cfg.partitionNumel p := by
  have hw := cfg.worldSize_pos
  have hle := Nat.mod_le (cfg.dsNumel p) cfg.worldSize
  apply Nat.div_pos ?_ hw
  rw [paddingSize]
  split_ifs with hrem
  · omega
  · exact Nat.le_of_dvd h (Nat.dvd_of_mod_eq_zero (not_not.mp hrem))

theorem total_pos {params : List ℕ} (hne : params ≠ [])
    (h : ∀ p ∈ params, 0 < cfg.dsNumel p) : 0 < cfg.total params := by
  obtain ⟨p, params, rfl⟩ := List.exists_cons_of_ne_nil hne
  have hp := cfg.partitionNumel_pos (h p List.mem_cons_self)
  rw [total, List.map_cons, List.sum_cons]
  omega

/-- The last parameter closes the last sub-group, so none is lost. -/
theorem flatten_subGroupLoop (size : ℤ) {params : List ℕ} (hne : params ≠ [])
    (subGroup : List ℕ) (localSubGroupSize : ℕ) :
    (cfg.subGroupLoop size (params.getLastD 0) params subGroup
      localSubGroupSize).flatten = subGroup ++ params := by
  induction params generalizing subGroup localSubGroupSize with
  | nil => exact absurd rfl hne
  | cons p params ih =>
      rcases List.eq_nil_or_concat' params with rfl | hconcat
      · rw [subGroupLoop, if_pos (.inr rfl)]
        simp [subGroupLoop]
      · have hne' : params ≠ [] := by
          obtain ⟨_, _, rfl⟩ := hconcat
          simp
        have hlast : (p :: params).getLastD 0 = params.getLastD 0 := by
          rw [List.getLastD_cons, List.getLastD_eq_getLast?, List.getLastD_eq_getLast?,
            List.getLast?_eq_getLast_of_ne_nil hne']
          rfl
        rw [subGroupLoop, hlast]
        split_ifs
        · rw [List.flatten_cons, ih hne']
          simp
        · rw [ih hne']
          simp

/-- The sub-groups of a group concatenate to it. -/
theorem flatten_createFp16SubGroups (paramsGroup : List ℕ) :
    (cfg.createFp16SubGroups paramsGroup).flatten = paramsGroup := by
  unfold createFp16SubGroups
  split
  · simp
  · split_ifs
    · simp
    · by_cases hne : paramsGroup = []
      · subst hne
        rfl
      · exact cfg.flatten_subGroupLoop _ hne [] 0

theorem total_append (params params' : List ℕ) :
    cfg.total (params ++ params') = cfg.total params + cfg.total params' := by
  simp [total]

theorem total_flatten (groups : List (List ℕ)) :
    cfg.total groups.flatten = (groups.map cfg.total).sum := by
  induction groups with
  | nil => rfl
  | cons group groups ih =>
      rw [List.flatten_cons, total_append, ih]
      rfl

theorem sum_total_createFp16SubGroups (paramsGroup : List ℕ) :
    ((cfg.createFp16SubGroups paramsGroup).map cfg.total).sum =
      cfg.total paramsGroup := by
  rw [← total_flatten, flatten_createFp16SubGroups]

end GroupConfig

namespace FlatGroups

variable {α β : Type} (cfg : GroupConfig)

/-! ## What the loops compute -/

/-- The parameters of a sub-group with the parts of its flat buffer, from an offset
on. -/
def viewEntriesFrom (flat : View) (start : ℕ) (params : List ℕ) : List (ℕ × View) :=
  (layOut cfg.partitionNumel start params).map fun entry => (entry.1, flat.sub entry.2)

/-- The parameters of all sub-groups with the parts of the flat buffers. -/
def viewEntries (groups : List (List ℕ)) (flats : List View) : List (ℕ × View) :=
  (groups.zip flats).flatMap fun entry => viewEntriesFrom cfg entry.2 0 entry.1

/-- The flat buffers of the sub-groups of group `j`, from an offset on. -/
def groupViews (j start : ℕ) (subGroups : List (List ℕ)) : List View :=
  (layOut cfg.total start subGroups).map fun entry =>
    ⟨.flat j, entry.2.start, entry.2.len⟩

/-- The flat buffers of all sub-groups. -/
def flatViews (paramGroups : List (List (List ℕ))) (j : ℕ) : List View :=
  (paramGroups.zipIdx j).flatMap fun entry => groupViews cfg entry.2 0 entry.1

variable {cfg} {s : FlatGroups α}

theorem viewEntries_append {groups groups' : List (List ℕ)} {flats flats' : List View}
    (h : groups.length = flats.length) :
    viewEntries cfg (groups ++ groups') (flats ++ flats') =
      viewEntries cfg groups flats ++ viewEntries cfg groups' flats' := by
  rw [viewEntries, List.zip_append h, List.flatMap_append]
  rfl

theorem foldl_appendSubGroup (j : ℕ) (subGroups : List (List ℕ)) (s : FlatGroups α) :
    subGroups.foldl (appendSubGroup cfg j) s =
      { s with
        fp16Groups := s.fp16Groups ++ subGroups
        subGroupToGroupId :=
          s.subGroupToGroupId ++ subGroups.map fun _ => j
        flatNumel := s.flatNumel ++ subGroups.map cfg.total } := by
  induction subGroups generalizing s with
  | nil => simp
  | cons subGroup subGroups ih =>
      rw [List.foldl_cons, ih]
      simp [appendSubGroup]

theorem foldl_appendSubGroups (paramGroups : List (List (List ℕ))) (j : ℕ)
    (s : FlatGroups α) :
    (paramGroups.zipIdx j).foldl
        (fun s entry => entry.1.foldl (appendSubGroup cfg entry.2) s) s =
      { s with
        fp16Groups := s.fp16Groups ++ paramGroups.flatten
        subGroupToGroupId := s.subGroupToGroupId ++
          (paramGroups.zipIdx j).flatMap fun entry => entry.1.map fun _ => entry.2
        flatNumel := s.flatNumel ++ paramGroups.flatten.map cfg.total } := by
  induction paramGroups generalizing s j with
  | nil => simp
  | cons subGroups paramGroups ih =>
      rw [List.zipIdx_cons, List.foldl_cons, foldl_appendSubGroup, ih]
      simp

theorem foldl_appendCpuMemory {groups : List (List ℕ)}
    (h : ∀ group ∈ groups, 0 < cfg.total group) (s : FlatGroups α) :
    groups.foldl (appendCpuMemory cfg) s =
      { s with
        cpuMemory := s.cpuMemory ++
          (groups.zipIdx s.cpuMemory.length).map fun entry =>
            ⟨.flat entry.2, 0, cfg.total entry.1⟩ } := by
  induction groups generalizing s with
  | nil => simp
  | cons group groups ih =>
      rw [List.foldl_cons, ih fun g hg => h g (List.mem_cons_of_mem _ hg)]
      rw [appendCpuMemory, if_pos (h group List.mem_cons_self)]
      simp

variable (cfg) in
/-- Shards are moved to the parts of the flat buffer that follow `start`. -/
theorem foldlM_moveParam (flat : View) {params : List ℕ} {start : ℕ}
    (h : start + cfg.total params ≤ flat.len) (s : FlatGroups α) :
    ∃ mem, params.foldlM (moveParam cfg flat) (s, start) =
      some ({ s with
        mem := mem
        dsTensor := assign s.dsTensor (viewEntriesFrom cfg flat start params) },
        start + cfg.total params) := by
  induction params generalizing start s with
  | nil => exact ⟨s.mem, rfl⟩
  | cons p params ih =>
      rw [GroupConfig.total, List.map_cons, List.sum_cons, ← Nat.add_assoc] at h
      have hnarrow : flat.narrow start (cfg.partitionNumel p) =
          some (flat.sub ⟨start, cfg.partitionNumel p⟩) :=
        if_pos ((Nat.le_add_right _ _).trans h)
      obtain ⟨mem, hrest⟩ := ih h
        { s with
          mem := (flat.sub ⟨start, cfg.partitionNumel p⟩).write
            (fun x => s.mem (s.dsTensor p).storage ((s.dsTensor p).start + x)) s.mem
          dsTensor := Function.update s.dsTensor p
            (flat.sub ⟨start, cfg.partitionNumel p⟩) }
      refine ⟨mem, ?_⟩
      rw [List.foldlM_cons, moveParam, hnarrow]
      refine hrest.trans ?_
      simp [viewEntriesFrom, layOut, assign, GroupConfig.total, Nat.add_assoc]

/-- The sub-groups of a group are placed in its buffer one after the other. -/
theorem foldlM_placeSubGroup {j size : ℕ} {subGroups : List (List ℕ)} {offset : ℕ}
    (hmemory : s.cpuMemory[j]? = some ⟨.flat j, 0, size⟩)
    (h : offset + (subGroups.map cfg.total).sum ≤ size) :
    ∃ mem, subGroups.foldlM (placeSubGroup cfg j) (s, offset) =
      some ({ s with
        mem := mem
        groupsFlat := s.groupsFlat ++ groupViews cfg j offset subGroups
        dsTensor := assign s.dsTensor
          (viewEntries cfg subGroups (groupViews cfg j offset subGroups)) },
        offset + (subGroups.map cfg.total).sum) := by
  induction subGroups generalizing s offset with
  | nil =>
      refine ⟨s.mem, ?_⟩
      simp [groupViews, layOut, viewEntries, assign]
  | cons subGroup subGroups ih =>
      rw [List.map_cons, List.sum_cons, ← Nat.add_assoc] at h
      set flat : View := ⟨.flat j, offset, cfg.total subGroup⟩ with hflat
      have hnarrow : (⟨.flat j, 0, size⟩ : View).narrow offset (cfg.total subGroup) =
          some flat := by
        rw [View.narrow, if_pos ((Nat.le_add_right _ _).trans h), hflat, View.sub,
          Nat.zero_add]
      have hfits : 0 + cfg.total subGroup ≤ flat.len := (Nat.zero_add _).le
      obtain ⟨mem₁, hmove⟩ := foldlM_moveParam cfg flat hfits
        { s with groupsFlat := s.groupsFlat ++ [flat] }
      obtain ⟨mem, hrest⟩ := ih
        (s := { s with
          mem := mem₁
          groupsFlat := s.groupsFlat ++ [flat]
          dsTensor := assign s.dsTensor (viewEntriesFrom cfg flat 0 subGroup) })
        hmemory h
      refine ⟨mem, ?_⟩
      have hstep : placeSubGroup cfg j (s, offset) subGroup =
          some ({ s with
            mem := mem₁
            groupsFlat := s.groupsFlat ++ [flat]
            dsTensor := assign s.dsTensor (viewEntriesFrom cfg flat 0 subGroup) },
            offset + cfg.total subGroup) := by
        simp only [placeSubGroup, hmemory, moveToFlatBuffer, Option.bind_eq_bind,
          Option.bind_some, hnarrow, hmove]
        rfl
      rw [List.foldlM_cons, hstep]
      refine hrest.trans ?_
      simp [groupViews, layOut, viewEntries, assign_append, hflat, Nat.add_assoc]

@[simp]
theorem length_groupViews (j start : ℕ) (subGroups : List (List ℕ)) :
    (groupViews cfg j start subGroups).length = subGroups.length := by
  have hlength := congrArg List.length (map_fst_layOut cfg.total start subGroups)
  rw [List.length_map] at hlength
  rw [groupViews, List.length_map, hlength]

theorem length_flatViews (paramGroups : List (List (List ℕ))) (j : ℕ) :
    (flatViews cfg paramGroups j).length = paramGroups.flatten.length := by
  induction paramGroups generalizing j with
  | nil => rfl
  | cons subGroups paramGroups ih =>
      rw [flatViews, List.zipIdx_cons, List.flatMap_cons, List.length_append,
        List.flatten_cons, List.length_append, length_groupViews]
      exact congrArg _ (ih (j + 1))

theorem foldlM_placeGroup {paramGroups : List (List (List ℕ))} {j : ℕ}
    (hmemory : ∀ entry ∈ paramGroups.zipIdx j, s.cpuMemory[entry.2]? =
      some ⟨.flat entry.2, 0, (entry.1.map cfg.total).sum⟩) :
    ∃ mem, (paramGroups.zipIdx j).foldlM (placeGroup cfg) s =
      some { s with
        mem := mem
        groupsFlat := s.groupsFlat ++ flatViews cfg paramGroups j
        dsTensor := assign s.dsTensor
          (viewEntries cfg paramGroups.flatten (flatViews cfg paramGroups j)) } := by
  induction paramGroups generalizing s j with
  | nil =>
      refine ⟨s.mem, ?_⟩
      simp [flatViews, viewEntries, assign]
  | cons subGroups paramGroups ih =>
      rw [List.zipIdx_cons] at hmemory
      obtain ⟨mem₁, hplace⟩ := foldlM_placeSubGroup
        (hmemory (subGroups, j) List.mem_cons_self) (Nat.zero_add _).le
      obtain ⟨mem, hrest⟩ := ih
        (s := { s with
          mem := mem₁
          groupsFlat := s.groupsFlat ++ groupViews cfg j 0 subGroups
          dsTensor := assign s.dsTensor
            (viewEntries cfg subGroups (groupViews cfg j 0 subGroups)) })
        fun entry hentry => hmemory entry (List.mem_cons_of_mem _ hentry)
      refine ⟨mem, ?_⟩
      have hstep : placeGroup cfg s (subGroups, j) =
          some { s with
            mem := mem₁
            groupsFlat := s.groupsFlat ++ groupViews cfg j 0 subGroups
            dsTensor := assign s.dsTensor
              (viewEntries cfg subGroups (groupViews cfg j 0 subGroups)) } := by
        simp only [placeGroup, hplace]
        rfl
      have hviews : flatViews cfg (subGroups :: paramGroups) j =
          groupViews cfg j 0 subGroups ++ flatViews cfg paramGroups (j + 1) := by
        rw [flatViews, List.zipIdx_cons, List.flatMap_cons]
        rfl
      rw [List.zipIdx_cons, List.foldlM_cons, hstep]
      refine hrest.trans ?_
      rw [hviews, List.flatten_cons, viewEntries_append (length_groupViews j 0 _).symm,
        assign_append, List.append_assoc]

/-! ## The layout after the groups are set up -/

/-- The sub-groups with their parameters, and the sub-group and the range of each. -/
def tiles (cfg : GroupConfig) (groups : List (List ℕ)) : List (ℕ × ℕ × Range) :=
  groups.zipIdx.flatMap fun entry =>
    (layOut cfg.partitionNumel 0 entry.1).map fun e => (e.1, entry.2, e.2)

/-- The groups are laid out. -/
structure Laid (cfg : GroupConfig) (groups : List (List ℕ)) (s : FlatGroups α) :
    Prop where
  fp16Groups : s.fp16Groups = (groups.map cfg.createFp16SubGroups).flatten
  subGroupToGroupId : s.subGroupToGroupId =
    (groups.map cfg.createFp16SubGroups).zipIdx.flatMap fun entry =>
      entry.1.map fun _ => entry.2
  flatNumel : s.flatNumel = s.fp16Groups.map cfg.total
  cpuMemory : s.cpuMemory =
    groups.zipIdx.map fun entry => ⟨.flat entry.2, 0, cfg.total entry.1⟩
  groupsFlat : s.groupsFlat = flatViews cfg (groups.map cfg.createFp16SubGroups) 0
  fp32Numel : s.fp32Numel = s.groupsFlat.map View.len
  len : ∀ p, (s.dsTensor p).len = cfg.partitionNumel p
  dsTensor : ∀ p ∈ groups.flatten, ∀ v,
    (∀ f, assign f (viewEntries cfg s.fp16Groups s.groupsFlat) p = v) →
      s.dsTensor p = v

theorem len_of_mem_viewEntries {groups : List (List ℕ)} {flats : List View}
    {entry : ℕ × View} (h : entry ∈ viewEntries cfg groups flats) :
    entry.2.len = cfg.partitionNumel entry.1 := by
  obtain ⟨⟨group, flat⟩, -, hmem⟩ := List.mem_flatMap.mp h
  obtain ⟨⟨p, r⟩, hr, rfl⟩ := List.mem_map.mp hmem
  exact len_of_mem_layOut hr

/-- The state before the shards are moved. -/
def grouped (cfg : GroupConfig) (groups : List (List ℕ)) (mem : Storage → ℕ → α) :
    FlatGroups α :=
  { init cfg mem with
    fp16Groups := (groups.map cfg.createFp16SubGroups).flatten
    subGroupToGroupId := (groups.map cfg.createFp16SubGroups).zipIdx.flatMap
      fun entry => entry.1.map fun _ => entry.2
    flatNumel := (groups.map cfg.createFp16SubGroups).flatten.map cfg.total
    cpuMemory := groups.zipIdx.map fun entry =>
      ⟨.flat entry.2, 0, cfg.total entry.1⟩ }

theorem createFp16Partitions_eq {groups : List (List ℕ)}
    (h : ∀ group ∈ groups, 0 < cfg.total group) (mem : Storage → ℕ → α) :
    createFp16Partitions cfg groups (init cfg mem) =
      (groups.map cfg.createFp16SubGroups).zipIdx.foldlM (placeGroup cfg)
        (grouped cfg groups mem) := by
  rw [createFp16Partitions, foldl_appendSubGroups, foldl_appendCpuMemory h]
  rfl

/-- The buffer of every group has room for its sub-groups. -/
theorem grouped_cpuMemory (groups : List (List ℕ)) (mem : Storage → ℕ → α)
    {entry : List (List ℕ) × ℕ}
    (h : entry ∈ (groups.map cfg.createFp16SubGroups).zipIdx) :
    (grouped cfg groups mem).cpuMemory[entry.2]? =
      some ⟨.flat entry.2, 0, (entry.1.map cfg.total).sum⟩ := by
  obtain ⟨subGroups, j⟩ := entry
  rw [List.mk_mem_zipIdx_iff_getElem?, List.getElem?_map, Option.map_eq_some_iff] at h
  obtain ⟨group, hgroup, rfl⟩ := h
  simp [grouped, hgroup, cfg.sum_total_createFp16SubGroups]

/-- Setting up the groups succeeds, and lays them out. -/
theorem create_laid {groups : List (List ℕ)} (hgroups : ∀ group ∈ groups, group ≠ [])
    (hnumel : ∀ group ∈ groups, ∀ p ∈ group, 0 < cfg.dsNumel p)
    (mem : Storage → ℕ → α) :
    ∃ s, create cfg groups mem = some s ∧ Laid cfg groups s := by
  have htotal : ∀ group ∈ groups, 0 < cfg.total group := fun group hgroup =>
    cfg.total_pos (hgroups group hgroup) (hnumel group hgroup)
  obtain ⟨mem', hplace⟩ := foldlM_placeGroup
    fun entry (hentry : entry ∈ (groups.map cfg.createFp16SubGroups).zipIdx) =>
      grouped_cpuMemory groups mem hentry
  rw [← createFp16Partitions_eq htotal] at hplace
  refine ⟨_, by rw [create, hplace]; rfl, ?_⟩
  constructor
  · rfl
  · rfl
  · rfl
  · rfl
  · rfl
  · rfl
  · exact assign_property (f := (init cfg mem).dsTensor)
      (P := fun p v => v.len = cfg.partitionNumel p) (fun p => rfl)
      fun entry hentry => len_of_mem_viewEntries hentry
  · intro p _ v hv
    exact hv _

/-! ## The position of a gradient -/

theorem foldl_setGradPosition (i : ℕ) (params : List ℕ) (start : ℕ)
    (pos : ℕ → Option GradPosition) :
    params.foldl (setGradPosition cfg i) (pos, start) =
      (assign pos ((layOut cfg.partitionNumel start params).map fun entry =>
          (entry.1, some (i, entry.2.start, entry.2.len))),
        start + cfg.total params) := by
  induction params generalizing start pos with
  | nil => rfl
  | cons p params ih =>
      rw [List.foldl_cons, setGradPosition]
      refine (ih _ _).trans ?_
      simp [layOut, assign, GroupConfig.total, Nat.add_assoc]

theorem gradPosition_eq (s : FlatGroups α) :
    s.gradPosition cfg = assign (fun _ => none)
      ((tiles cfg s.fp16Groups).map fun entry =>
        (entry.1, some (entry.2.1, entry.2.2.start, entry.2.2.len))) := by
  have hfold : ∀ (groups : List (List ℕ)) (i : ℕ) (pos : ℕ → Option GradPosition),
      (groups.zipIdx i).foldl
          (fun pos entry => (entry.1.foldl (setGradPosition cfg entry.2) (pos, 0)).1)
          pos =
        assign pos (((groups.zipIdx i).flatMap fun entry =>
          (layOut cfg.partitionNumel 0 entry.1).map fun e => (e.1, entry.2, e.2)).map
            fun entry => (entry.1, some (entry.2.1, entry.2.2.start, entry.2.2.len))) := by
    intro groups
    induction groups with
    | nil =>
        intro i pos
        rfl
    | cons group groups ih =>
        intro i pos
        rw [List.zipIdx_cons, List.foldl_cons, ih, foldl_setGradPosition,
          List.flatMap_cons, List.map_append, assign_append, List.map_map]
        rfl
  exact hfold s.fp16Groups 0 _

/-- Both the shards and the gradients go by the tiles. -/
theorem viewEntries_eq (groups : List (List ℕ)) {flats : List View}
    (h : groups.length = flats.length) :
    viewEntries cfg groups flats =
      (tiles cfg groups).map fun entry =>
        (entry.1, (flats.getD entry.2.1 ⟨.flat 0, 0, 0⟩).sub entry.2.2) := by
  have hzip : groups.zip flats =
      groups.zipIdx.map fun entry => (entry.1, flats.getD entry.2 ⟨.flat 0, 0, 0⟩) := by
    apply List.ext_getElem
    · simp [h]
    · intro i h₁ h₂
      have hi : i < flats.length := by
        rw [List.length_zip] at h₁
        omega
      simp [List.getD_eq_getElem?_getD, List.getElem?_eq_getElem hi]
  rw [viewEntries, hzip, tiles, List.flatMap_map, List.map_flatMap]
  congr 1
  funext entry
  rw [viewEntriesFrom, List.map_map]
  rfl

theorem mem_tiles {groups : List (List ℕ)} {p i : ℕ} {r : Range}
    (h : (p, i, r) ∈ tiles cfg groups) :
    ∃ group, groups[i]? = some group ∧
      (p, r) ∈ layOut cfg.partitionNumel 0 group := by
  obtain ⟨⟨group, i'⟩, hentry, hmem⟩ := List.mem_flatMap.mp h
  obtain ⟨⟨p', r'⟩, hr, heq⟩ := List.mem_map.mp hmem
  obtain ⟨rfl, hpair⟩ := Prod.mk.inj heq
  obtain ⟨rfl, rfl⟩ := Prod.mk.inj hpair
  exact ⟨group, List.mk_mem_zipIdx_iff_getElem?.mp hentry, hr⟩

theorem map_fst_tiles (groups : List (List ℕ)) :
    (tiles cfg groups).map Prod.fst = groups.flatten := by
  have hfold : ∀ i, ((groups.zipIdx i).flatMap fun entry =>
      (layOut cfg.partitionNumel 0 entry.1).map fun e => (e.1, entry.2, e.2)).map
        Prod.fst = groups.flatten := by
    induction groups with
    | nil =>
        intro i
        rfl
    | cons group groups ih =>
        intro i
        rw [List.zipIdx_cons, List.flatMap_cons, List.map_append, ih, List.map_map,
          List.flatten_cons]
        exact congrArg (· ++ _) (map_fst_layOut cfg.partitionNumel 0 group)
  exact hfold 0

/-! ## Updates -/

theorem View.unflatten_eq (flat : View) {params : List ℕ} {start : ℕ}
    (h : start + cfg.total params ≤ flat.len) :
    flat.unflatten start (params.map cfg.partitionNumel) =
      some ((layOut cfg.partitionNumel start params).map fun entry =>
        flat.sub entry.2) := by
  induction params generalizing start with
  | nil => rfl
  | cons p params ih =>
      rw [GroupConfig.total, List.map_cons, List.sum_cons, ← Nat.add_assoc] at h
      have hnarrow : flat.narrow start (cfg.partitionNumel p) =
          some (flat.sub ⟨start, cfg.partitionNumel p⟩) :=
        if_pos ((Nat.le_add_right _ _).trans h)
      rw [List.map_cons, View.unflatten, hnarrow, Option.bind_eq_bind, Option.bind_some,
        ih h]
      rfl

/-- What the storage holds after the first `k` sub-groups are copied. -/
def written (toHalf : β → α) (fp32 : ℕ → ℕ → β) (flats : List View)
    (mem : Storage → ℕ → α) (k : ℕ) : Storage → ℕ → α :=
  ((flats.take k).zipIdx).foldl
    (fun mem entry => entry.1.write (fun x => toHalf (fp32 entry.2 x)) mem) mem

/-- A sub-group is copied and its parameters are views of it again. -/
theorem reassign_eq (toHalf : β → α) (fp32 : ℕ → ℕ → β) {i : ℕ} {flat : View}
    {group : List ℕ} (hflat : s.groupsFlat[i]? = some flat)
    (hnumel : s.fp32Numel[i]? = some flat.len) (hgroup : s.fp16Groups[i]? = some group)
    (htotal : flat.len = cfg.total group)
    (hlen : ∀ p, (s.dsTensor p).len = cfg.partitionNumel p) :
    s.reassign toHalf fp32 i =
      some { s with
        mem := flat.write (fun x => toHalf (fp32 i x)) s.mem
        dsTensor := assign s.dsTensor (viewEntriesFrom cfg flat 0 group) } := by
  have hlens : (group.map fun p => (s.dsTensor p).len) =
      group.map cfg.partitionNumel := List.map_congr_left fun p _ => hlen p
  have hunflatten : flat.unflatten 0 (group.map fun p => (s.dsTensor p).len) =
      some ((layOut cfg.partitionNumel 0 group).map fun entry => flat.sub entry.2) := by
    rw [hlens]
    apply View.unflatten_eq
    rw [htotal, Nat.zero_add]
  have hzip : group.zip ((layOut cfg.partitionNumel 0 group).map fun entry =>
      flat.sub entry.2) = viewEntriesFrom cfg flat 0 group := by
    have hfst := map_fst_layOut cfg.partitionNumel 0 group
    calc
      _ = ((layOut cfg.partitionNumel 0 group).map Prod.fst).zip
            ((layOut cfg.partitionNumel 0 group).map fun entry => flat.sub entry.2) := by
        rw [hfst]
      _ = _ := List.zip_map'
  rw [reassign, hflat, hnumel]
  simp only [Option.bind_eq_bind, Option.bind_some, if_true, unflattenPartitionedParameters,
    hflat, hgroup, hunflatten, hzip]
  rfl

theorem written_succ (toHalf : β → α) (fp32 : ℕ → ℕ → β) {flats : List View}
    (mem : Storage → ℕ → α) {k : ℕ} {flat : View} (h : flats[k]? = some flat) :
    written toHalf fp32 flats mem (k + 1) =
      flat.write (fun x => toHalf (fp32 k x)) (written toHalf fp32 flats mem k) := by
  have hk := (List.getElem?_eq_some_iff.mp h).1
  have hlength : (flats.take k).length = k := by
    rw [List.length_take]
    omega
  rw [written, List.take_add_one, h, Option.toList_some, List.zipIdx_append,
    List.foldl_append, hlength, Nat.zero_add]
  rfl

/-- What is written to a buffer stays there while the others are written. -/
theorem written_apply {toHalf : β → α} {fp32 : ℕ → ℕ → β} {flats : List View}
    (hapart : flats.Pairwise fun a b => a.storage ≠ b.storage ∨ a.range.stop ≤ b.start)
    (mem : Storage → ℕ → α) {k i x : ℕ} {flat : View} (hk : k ≤ flats.length)
    (hi : i < k) (hflat : flats[i]? = some flat) (hx : x < flat.len) :
    written toHalf fp32 flats mem k flat.storage (flat.start + x) =
      toHalf (fp32 i x) := by
  induction k with
  | zero => cases hi
  | succ k ih =>
      have hlast : flats[k]? = some flats[k] := List.getElem?_eq_getElem hk
      rw [written_succ toHalf fp32 mem hlast, View.write]
      rcases Nat.lt_succ_iff_lt_or_eq.mp hi with hlt | rfl
      · obtain ⟨hi', rfl⟩ := List.getElem?_eq_some_iff.mp hflat
        have hbefore := List.pairwise_iff_getElem.mp hapart i k hi' hk hlt
        rw [if_neg, ih (Nat.le_of_succ_le hk) hlt]
        rintro ⟨hstorage, hstart, -⟩
        rcases hbefore with hne | hstop
        · exact hne hstorage
        · simp only [View.range, Range.stop] at hstop
          omega
      · obtain rfl : flats[i] = flat := Option.some.inj (hlast.symm.trans hflat)
        rw [if_pos ⟨rfl, Nat.le_add_right _ _, Nat.add_lt_add_left hx _⟩,
          Nat.add_sub_cancel_left]

theorem map_len_flatViews (paramGroups : List (List (List ℕ))) (j : ℕ) :
    (flatViews cfg paramGroups j).map View.len = paramGroups.flatten.map cfg.total := by
  have hgroup : ∀ (subGroups : List (List ℕ)) (j start : ℕ),
      (groupViews cfg j start subGroups).map View.len = subGroups.map cfg.total := by
    intro subGroups j
    induction subGroups with
    | nil =>
        intro start
        rfl
    | cons subGroup subGroups ih =>
        intro start
        exact congrArg (_ :: ·) (ih _)
  induction paramGroups generalizing j with
  | nil => rfl
  | cons subGroups paramGroups ih =>
      rw [flatViews, List.zipIdx_cons, List.flatMap_cons, List.map_append, hgroup,
        List.flatten_cons, List.map_append]
      exact congrArg _ (ih (j + 1))

theorem storage_of_mem_flatViews {paramGroups : List (List (List ℕ))} {j : ℕ} {v : View}
    (h : v ∈ flatViews cfg paramGroups j) : ∃ k, j ≤ k ∧ v.storage = .flat k := by
  obtain ⟨⟨subGroups, k⟩, hentry, hv⟩ := List.mem_flatMap.mp h
  obtain ⟨e, -, rfl⟩ := List.mem_map.mp hv
  exact ⟨k, List.le_snd_of_mem_zipIdx hentry, rfl⟩

variable (cfg) in
/-- The flat buffers of the sub-groups do not overlap. -/
theorem pairwise_flatViews (paramGroups : List (List (List ℕ))) (j : ℕ) :
    (flatViews cfg paramGroups j).Pairwise fun a b =>
      a.storage ≠ b.storage ∨ a.range.stop ≤ b.start := by
  induction paramGroups generalizing j with
  | nil => exact List.Pairwise.nil
  | cons subGroups paramGroups ih =>
      rw [flatViews, List.zipIdx_cons, List.flatMap_cons]
      refine List.pairwise_append.mpr ⟨?_, ih (j + 1), ?_⟩
      · have htiles := (tiles_layOut cfg.total 0 subGroups).pairwise
        rw [List.pairwise_map] at htiles
        refine List.pairwise_map.mpr (htiles.imp ?_)
        intro a b hab
        exact .inr hab
      · intro a ha b hb
        obtain ⟨e, -, rfl⟩ := List.mem_map.mp ha
        obtain ⟨k, hk, hstorage⟩ := storage_of_mem_flatViews hb
        refine .inl fun heq => ?_
        have hflat : Storage.flat j = Storage.flat k := heq.trans hstorage
        obtain rfl := Storage.flat.inj hflat
        omega

variable {groups : List (List ℕ)}

/-- The buffers of a sub-group have its size. -/
theorem Laid.sub_group (h : Laid cfg groups s) {i : ℕ} {group : List ℕ}
    (hgroup : s.fp16Groups[i]? = some group) :
    ∃ flat, s.groupsFlat[i]? = some flat ∧ flat.len = cfg.total group ∧
      s.fp32Numel[i]? = some flat.len ∧ s.flatNumel[i]? = some (cfg.total group) := by
  have hlens : s.groupsFlat.map View.len = s.fp16Groups.map cfg.total := by
    rw [h.groupsFlat, map_len_flatViews, ← h.fp16Groups]
  have hget := congrArg (·[i]?) hlens
  simp only [List.getElem?_map, hgroup, Option.map_some, Option.map_eq_some_iff] at hget
  obtain ⟨flat, hflat, hlen⟩ := hget
  refine ⟨flat, hflat, hlen, ?_, ?_⟩
  · rw [h.fp32Numel, List.getElem?_map, hflat, Option.map_some]
  · rw [h.flatNumel, List.getElem?_map, hgroup, Option.map_some]

theorem Laid.length_eq (h : Laid cfg groups s) :
    s.fp16Groups.length = s.groupsFlat.length := by
  rw [h.groupsFlat, length_flatViews, h.fp16Groups]

theorem Laid.flatten_fp16Groups (h : Laid cfg groups s) :
    s.fp16Groups.flatten = groups.flatten := by
  rw [h.fp16Groups, List.flatten_flatten, List.map_map]
  congr 1
  exact List.map_id'' (fun group => cfg.flatten_createFp16SubGroups group) groups

/-- The first `k` sub-groups are updated. -/
theorem Laid.foldlM_reassign (h : Laid cfg groups s) (toHalf : β → α) (fp32 : ℕ → ℕ → β)
    {k : ℕ} (hk : k ≤ s.fp16Groups.length) :
    (List.range k).foldlM (reassign toHalf fp32) s =
      some { s with
        mem := written toHalf fp32 s.groupsFlat s.mem k
        dsTensor := assign s.dsTensor
          (viewEntries cfg (s.fp16Groups.take k) (s.groupsFlat.take k)) } := by
  induction k with
  | zero => rfl
  | succ k ih =>
      have hgroup : s.fp16Groups[k]? = some s.fp16Groups[k] :=
        List.getElem?_eq_getElem hk
      obtain ⟨flat, hflat, htotal, hnumel, -⟩ := h.sub_group hgroup
      have hlengths : (s.fp16Groups.take k).length = (s.groupsFlat.take k).length := by
        rw [List.length_take, List.length_take, h.length_eq]
      have hlen : ∀ p, (assign s.dsTensor
          (viewEntries cfg (s.fp16Groups.take k) (s.groupsFlat.take k)) p).len =
            cfg.partitionNumel p :=
        assign_property (P := fun p v => v.len = cfg.partitionNumel p) h.len
          fun entry hentry => len_of_mem_viewEntries hentry
      have hstep := reassign_eq (s := { s with
          mem := written toHalf fp32 s.groupsFlat s.mem k
          dsTensor := assign s.dsTensor
            (viewEntries cfg (s.fp16Groups.take k) (s.groupsFlat.take k)) })
        toHalf fp32 hflat hnumel hgroup htotal hlen
      rw [List.range_succ, List.foldlM_append, ih (Nat.le_of_succ_le hk),
        Option.bind_eq_bind, Option.bind_some, List.foldlM_cons, hstep,
        Option.bind_eq_bind, Option.bind_some, List.foldlM_nil, List.take_add_one,
        List.take_add_one, hgroup, hflat, Option.toList_some, Option.toList_some,
        viewEntries_append hlengths, assign_append, written_succ toHalf fp32 s.mem hflat]
      simp [viewEntries]

/-- An update succeeds, keeps the layout and copies the fp32 buffers. -/
theorem Laid.update (h : Laid cfg groups s) (toHalf : β → α) (fp32 : ℕ → ℕ → β) :
    ∃ s', s.update toHalf fp32 = some s' ∧ Laid cfg groups s' ∧
      s'.fp16Groups = s.fp16Groups ∧ s'.groupsFlat = s.groupsFlat ∧
      s'.mem = written toHalf fp32 s.groupsFlat s.mem s.groupsFlat.length := by
  have hrun := h.foldlM_reassign toHalf fp32 le_rfl
  rw [List.take_length, h.length_eq, List.take_length, ← h.length_eq] at hrun
  refine ⟨_, hrun, ?_, rfl, rfl, by rw [h.length_eq]⟩
  constructor
  · exact h.fp16Groups
  · exact h.subGroupToGroupId
  · exact h.flatNumel
  · exact h.cpuMemory
  · exact h.groupsFlat
  · exact h.fp32Numel
  · exact assign_property (f := s.dsTensor)
      (P := fun p v => v.len = cfg.partitionNumel p) h.len
      fun entry hentry => len_of_mem_viewEntries hentry
  · intro p _ v hv
    exact hv _

/-- A parameter, its gradient and its fp32 values are at one tile. -/
theorem Laid.position (h : Laid cfg groups s) {p : ℕ} (hp : p ∈ groups.flatten) :
    ∃ i group flat, ∃ r : Range,
      s.fp16Groups[i]? = some group ∧ s.groupsFlat[i]? = some flat ∧
      (p, r) ∈ layOut cfg.partitionNumel 0 group ∧
      s.gradPosition cfg p = some (i, r.start, r.len) ∧
      s.dsTensor p = flat.sub r := by
  have hmem : p ∈ (tiles cfg s.fp16Groups).map Prod.fst := by
    rwa [map_fst_tiles, h.flatten_fp16Groups]
  obtain ⟨⟨i, r⟩, htile, hassign⟩ := exists_assign hmem
  obtain ⟨group, hgroup, hr⟩ := mem_tiles htile
  obtain ⟨flat, hflat, -, -, -⟩ := h.sub_group hgroup
  refine ⟨i, group, flat, r, hgroup, hflat, hr, ?_, ?_⟩
  · rw [gradPosition_eq]
    exact assign_map (fun _ tile => some (tile.1, tile.2.start, tile.2.len)) hassign hmem _
  · apply h.dsTensor p hp
    intro f
    rw [viewEntries_eq _ h.length_eq,
      assign_map (fun _ tile => (s.groupsFlat.getD tile.1 ⟨.flat 0, 0, 0⟩).sub tile.2)
        hassign hmem, List.getD_eq_getElem?_getD, hflat]
    rfl

/-! ## Consistency -/

/-- The sub-groups are the groups cut into parts, their flat buffers tile the buffers
of the groups, and a parameter has its shard, its gradient and its fp32 values at one
place of the tiling of its sub-group. -/
structure Consistent (cfg : GroupConfig) (groups : List (List ℕ)) (s : FlatGroups α) :
    Prop where
  fp16Groups : s.fp16Groups = (groups.map cfg.createFp16SubGroups).flatten
  concat : ∀ group ∈ groups, (cfg.createFp16SubGroups group).flatten = group
  buffers : ∀ j group, groups[j]? = some group →
    s.cpuMemory[j]? = some ⟨.flat j, 0, cfg.total group⟩ ∧
      Tiles 0 ((s.groupsFlat.filter (·.storage = .flat j)).map View.range)
        (cfg.total group)
  storages : s.groupsFlat.map View.storage = s.subGroupToGroupId.map Storage.flat
  fp16Numel : s.groupsFlat.map View.len = s.fp16Groups.map cfg.total
  fp32Numel : s.fp32Numel = s.fp16Groups.map cfg.total
  gradNumel : s.flatNumel = s.fp16Groups.map cfg.total
  sub_groups : ∀ group ∈ s.fp16Groups,
    Tiles 0 ((layOut cfg.partitionNumel 0 group).map Prod.snd) (cfg.total group)
  params : ∀ p ∈ groups.flatten, ∃ i group flat, ∃ r : Range,
    s.fp16Groups[i]? = some group ∧ s.groupsFlat[i]? = some flat ∧
      (p, r) ∈ layOut cfg.partitionNumel 0 group ∧
      s.gradPosition cfg p = some (i, r.start, r.len) ∧ s.dsTensor p = flat.sub r

variable (cfg) in
/-- The flat buffers in the buffer of a group are those of its sub-groups. -/
theorem filter_flatViews {paramGroups : List (List (List ℕ))} {j k : ℕ}
    {subGroups : List (List ℕ)} (h : paramGroups[k]? = some subGroups) :
    (flatViews cfg paramGroups j).filter (·.storage = .flat (j + k)) =
      groupViews cfg (j + k) 0 subGroups := by
  induction paramGroups generalizing j k with
  | nil => cases h
  | cons first paramGroups ih =>
      have hviews : flatViews cfg (first :: paramGroups) j =
          groupViews cfg j 0 first ++ flatViews cfg paramGroups (j + 1) := by
        rw [flatViews, List.zipIdx_cons, List.flatMap_cons]
        rfl
      rw [hviews, List.filter_append]
      cases k with
      | zero =>
          obtain rfl := Option.some.inj h
          rw [List.filter_eq_self.mpr, List.filter_eq_nil_iff.mpr, List.append_nil]
          · rfl
          · intro v hv hstorage
            obtain ⟨k, hk, hv⟩ := storage_of_mem_flatViews hv
            have heq := hv.symm.trans (of_decide_eq_true hstorage)
            have hkj := Storage.flat.inj heq
            omega
          · intro v hv
            obtain ⟨e, -, rfl⟩ := List.mem_map.mp hv
            simp
      | succ k =>
          have hrest := ih (j := j + 1) h
          rw [Nat.add_right_comm, Nat.add_assoc] at hrest
          rw [hrest, List.filter_eq_nil_iff.mpr, List.nil_append]
          intro v hv hstorage
          obtain ⟨e, -, rfl⟩ := List.mem_map.mp hv
          have hjk := Storage.flat.inj (of_decide_eq_true hstorage)
          omega

theorem map_storage_flatViews (paramGroups : List (List (List ℕ))) (j : ℕ) :
    (flatViews cfg paramGroups j).map View.storage =
      ((paramGroups.zipIdx j).flatMap fun entry => entry.1.map fun _ => entry.2).map
        Storage.flat := by
  have hgroup : ∀ (subGroups : List (List ℕ)) (j start : ℕ),
      (groupViews cfg j start subGroups).map View.storage =
        (subGroups.map fun _ => j).map Storage.flat := by
    intro subGroups j
    induction subGroups with
    | nil =>
        intro start
        rfl
    | cons subGroup subGroups ih =>
        intro start
        exact congrArg (_ :: ·) (ih _)
  induction paramGroups generalizing j with
  | nil => rfl
  | cons subGroups paramGroups ih =>
      rw [flatViews, List.zipIdx_cons, List.flatMap_cons, List.map_append, hgroup,
        List.flatMap_cons, List.map_append]
      exact congrArg _ (ih (j + 1))

theorem Laid.consistent (h : Laid cfg groups s) : Consistent cfg groups s := by
  have hlens : s.groupsFlat.map View.len = s.fp16Groups.map cfg.total := by
    rw [h.groupsFlat, map_len_flatViews, ← h.fp16Groups]
  constructor
  · exact h.fp16Groups
  · intro group _
    exact cfg.flatten_createFp16SubGroups group
  · intro j group hgroup
    constructor
    · rw [h.cpuMemory, List.getElem?_map, List.getElem?_zipIdx, hgroup]
      simp
    · have hsub : (groups.map cfg.createFp16SubGroups)[j]? =
          some (cfg.createFp16SubGroups group) := by
        rw [List.getElem?_map, hgroup, Option.map_some]
      have hfilter := filter_flatViews cfg (j := 0) hsub
      rw [Nat.zero_add] at hfilter
      rw [h.groupsFlat, hfilter, groupViews, List.map_map]
      have htiles := tiles_layOut cfg.total 0 (cfg.createFp16SubGroups group)
      rwa [cfg.sum_total_createFp16SubGroups, Nat.zero_add] at htiles
  · rw [h.groupsFlat, map_storage_flatViews, h.subGroupToGroupId]
  · exact hlens
  · rw [h.fp32Numel, hlens]
  · exact h.flatNumel
  · intro group _
    have htiles := tiles_layOut cfg.partitionNumel 0 group
    rwa [Nat.zero_add] at htiles
  · intro p hp
    exact h.position hp

/-- The shard of a parameter is the fp32 values at the place of its gradient. -/
def Updated (cfg : GroupConfig) (toHalf : β → α) (fp32 : ℕ → ℕ → β) (s : FlatGroups α)
    (p : ℕ) : Prop :=
  ∃ i, ∃ r : Range, s.gradPosition cfg p = some (i, r.start, r.len) ∧
    (∀ numel ≤ r.len, s.gradSlice cfg p numel = some (i, ⟨r.start, numel⟩)) ∧
    (s.dsTensor p).len = r.len ∧
    ∀ x < r.len, s.mem (s.dsTensor p).storage ((s.dsTensor p).start + x) =
      toHalf (fp32 i (r.start + x))

theorem Laid.updated (h : Laid cfg groups s) {toHalf : β → α} {fp32 : ℕ → ℕ → β}
    {mem : Storage → ℕ → α}
    (hmem : s.mem = written toHalf fp32 s.groupsFlat mem s.groupsFlat.length) {p : ℕ}
    (hp : p ∈ groups.flatten) : s.Updated cfg toHalf fp32 p := by
  obtain ⟨i, group, flat, r, hgroup, hflat, hr, hposition, htensor⟩ := h.position hp
  obtain ⟨flat', hflat', htotal, -, hnumel⟩ := h.sub_group hgroup
  obtain rfl := Option.some.inj (hflat.symm.trans hflat')
  have htiles := tiles_layOut cfg.partitionNumel 0 group
  have hstop := (htiles.mem (List.mem_map_of_mem hr)).2
  rw [Nat.zero_add] at hstop
  change r.stop ≤ cfg.total group at hstop
  refine ⟨i, r, hposition, ?_, ?_, ?_⟩
  · intro numel hle
    rw [gradSlice, hposition]
    simp only [Option.bind_eq_bind, Option.bind_some, hnumel]
    rw [if_pos]
    exact (Nat.add_le_add_left hle _).trans hstop
  · rw [htensor]
    rfl
  · intro x hx
    have hi := (List.getElem?_eq_some_iff.mp hflat).1
    have hapart := pairwise_flatViews cfg
      (groups.map cfg.createFp16SubGroups) 0
    rw [← h.groupsFlat] at hapart
    have hlt : r.start + x < flat.len := by
      rw [htotal]
      exact (Nat.add_lt_add_left hx _).trans_le hstop
    rw [htensor, hmem]
    simp only [View.sub]
    rw [Nat.add_assoc]
    exact written_apply hapart mem le_rfl hi hflat hlt

/-- Setting up the groups succeeds and every optimizer step after any others does;
in all states the layouts agree, and after a step each parameter is what the fp32
buffers hold at the place of its gradient. -/
theorem flat_layout_consistent (cfg : GroupConfig) {groups : List (List ℕ)}
    (hgroups : ∀ group ∈ groups, group ≠ [])
    (hnumel : ∀ group ∈ groups, ∀ p ∈ group, 0 < cfg.dsNumel p)
    (mem : Storage → ℕ → α) (toHalf : β → α) (steps : List (ℕ → ℕ → β)) :
    ∃ s s', create cfg groups mem = some s ∧
      steps.foldlM (fun s fp32 => s.update toHalf fp32) s = some s' ∧
      s'.Consistent cfg groups ∧
      ∀ fp32, ∃ s'', s'.update toHalf fp32 = some s'' ∧ s''.Consistent cfg groups ∧
        ∀ p ∈ groups.flatten, s''.dsTensor p = s'.dsTensor p ∧
          s''.Updated cfg toHalf fp32 p := by
  obtain ⟨s, hcreate, hlaid⟩ := create_laid hgroups hnumel mem
  have hsteps : ∀ s : FlatGroups α, Laid cfg groups s →
      ∃ s', steps.foldlM (fun s fp32 => s.update toHalf fp32) s = some s' ∧
        Laid cfg groups s' := by
    induction steps with
    | nil =>
        intro s hs
        exact ⟨s, rfl, hs⟩
    | cons fp32 steps ih =>
        intro s hs
        obtain ⟨s₁, hupdate, hs₁, -⟩ := hs.update toHalf fp32
        obtain ⟨s', hrest, hs'⟩ := ih s₁ hs₁
        refine ⟨s', ?_, hs'⟩
        rw [List.foldlM_cons, hupdate]
        exact hrest
  obtain ⟨s', hrun, hs'⟩ := hsteps s hlaid
  refine ⟨s, s', hcreate, hrun, hs'.consistent, ?_⟩
  intro fp32
  obtain ⟨s'', hupdate, hs'', hgroups', hflats, hmem⟩ := hs'.update toHalf fp32
  refine ⟨s'', hupdate, hs''.consistent, ?_⟩
  intro p hp
  constructor
  · obtain ⟨i, group, flat, r, -, hflat, -, hposition, htensor⟩ := hs'.position hp
    obtain ⟨i', group', flat', r', -, hflat', -, hposition', htensor'⟩ := hs''.position hp
    have heq : s''.gradPosition cfg = s'.gradPosition cfg := by
      unfold gradPosition
      rw [hgroups']
    rw [heq, hposition] at hposition'
    obtain ⟨rfl, hrange⟩ := Prod.mk.inj (Option.some.inj hposition')
    obtain ⟨hstart, hlen⟩ := Prod.mk.inj hrange
    rw [hflats, hflat] at hflat'
    obtain rfl := Option.some.inj hflat'
    rw [htensor, htensor', View.sub, View.sub, hstart, hlen]
  · rw [← hflats] at hmem
    exact hs''.updated hmem hp

/-- Shards of one to three elements, and sub-groups of two elements or more. -/
def twoRanks : GroupConfig where
  subGroupSize := some 2
  worldSize := 2
  worldSize_pos := Nat.two_pos
  dsNumel := fun p => p + 1

/-- Two groups, of which the first is cut between its parameters. -/
theorem flat_layout_consistent_twoRanks :
    ∃ s s' : FlatGroups ℤ,
      create twoRanks [[3, 0, 5], [1]] (fun _ _ => 0) = some s ∧
      [fun _ (x : ℕ) => (x : ℤ)].foldlM (fun s fp32 => s.update id fp32) s = some s' ∧
      s'.Consistent twoRanks [[3, 0, 5], [1]] ∧
      ∀ fp32, ∃ s'', s'.update id fp32 = some s'' ∧
        s''.Consistent twoRanks [[3, 0, 5], [1]] ∧
        ∀ p ∈ [[3, 0, 5], [1]].flatten, s''.dsTensor p = s'.dsTensor p ∧
          s''.Updated twoRanks id fp32 p :=
  flat_layout_consistent twoRanks (by decide) (by decide) _ _ _

end FlatGroups

end SmartNic.Training
