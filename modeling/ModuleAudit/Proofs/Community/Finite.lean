import ModuleAudit.Proofs.Community.Assigned
import ModuleAudit.Proofs.Float.Arithmetic

/-! When modularity is finite. The penalty of a community is a factor of the numbers of links that leave and enter it,
    and the factor is one divided by the resolution. For a very small resolution the factor, or its product with these
    numbers, is too large for a float; from then on every result is infinite or not a number at all. -/

namespace ModuleAudit

open Floating

namespace Community

variable {l : Level Float} {labels : Array Nat} {c : Nat} {t : Tuning Float}

/-! ### Numbers of links -/

/-- The items counted for each of several labels. -/
theorem sum_count {ι : Type} (xs : List ι) (label : ι → ℕ) {is : List ℕ} (hnodup : is.Nodup) :
    (is.map fun i => (xs.filter fun x => label x == i).length).sum =
      (xs.filter fun x => is.contains (label x)).length := by
  induction xs with
  | nil => simp
  | cons x xs ih =>
    have hcons (p : ι → Bool) : ((x :: xs).filter p).length = (if p x then 1 else 0) + (xs.filter p).length := by
      rw [List.filter_cons]
      split <;> simp [add_comm]
    have hone : (is.map fun i => if label x == i then 1 else 0).sum = if is.contains (label x) then 1 else 0 := by
      rw [← List.sum_toFinset _ hnodup]
      simp
    simp only [hcons, List.sum_map_add, hone, ih]

/-- Every link has weight one. -/
def Level.Plain (l : Level Float) : Prop := ∀ k ∈ l.links, k.weight = 1

theorem Level.plain_ofGraph (g : Graph) : (ofGraph g : Level Float).Plain := by
  intro k hk
  rw [links_ofGraph] at hk
  obtain ⟨e, -, rfl⟩ := List.mem_map.mp hk
  rfl

theorem Level.length_links_ofGraph (g : Graph) : (ofGraph g : Level Float).links.length = g.edgeCount := by
  rw [links_ofGraph, List.length_map]
  rfl

section Plain
variable (hl : l.Plain) (hle : l.links.length ≤ 2 ^ 53)
include hl hle

/-- The weight of some of the links is their number. -/
theorem is_weight (p : Link Float → Bool) :
    Is (Weight.sum ((l.links.filter p).map (·.weight))) (l.links.filter p).length := by
  have hcount : ((l.links.filter p).map fun _ => 1).sum = (l.links.filter p).length := by simp
  have hshort : (l.links.filter p).length ≤ 2 ^ 53 := (List.length_filter_le _ _).trans hle
  rw [← hcount] at hshort ⊢
  refine is_sum (fun k hk => ?_) hshort
  rw [hl k (List.mem_of_mem_filter hk)]
  exact_mod_cast is_one

theorem is_total : Is l.total l.links.length := by
  simpa [Level.total] using is_weight hl hle fun _ => true

/-- The links at some of the nodes, added up node by node, give their number. -/
theorem is_sumAt (side : Link Float → ℕ) {is : List ℕ} (hnodup : is.Nodup) :
    Is (Weight.sum (is.map fun i => Weight.sum ((l.links.filter (side · == i)).map (·.weight))))
      (l.links.filter fun k => is.contains (side k)).length := by
  rw [← sum_count l.links side hnodup]
  refine is_sum (fun i _ => is_weight hl hle _) ?_
  rw [sum_count l.links side hnodup]
  exact (List.length_filter_le _ _).trans hle

end Plain

/-! ### Resolutions that leave everything finite -/

/-- The links of a level and the penalty are bounded by powers of two. -/
structure Sized (t : Tuning Float) (l : Level Float) (j : ℕ) (k : ℤ) : Prop where
  plain : l.Plain
  nonempty : 0 < l.links.length
  links : l.links.length ≤ 2 ^ j
  short : j ≤ 53
  penalty : Within t.penalty (2 ^ k)
  least : -1074 ≤ k
  most : k + 2 * j ≤ 1022

/-- The links that enter a community. -/
def entering (l : Level Float) (labels : Array Nat) (c : Nat) : ℕ :=
  (l.links.filter fun k => labels.getD k.target 0 == c).length

variable {j : ℕ} {k : ℤ}

theorem entering_le (l : Level Float) (labels : Array Nat) (c : Nat) : entering l labels c ≤ l.links.length :=
  List.length_filter_le _ _

theorem Sized.links_le (h : Sized t l j k) : l.links.length ≤ 2 ^ 53 :=
  h.links.trans (Nat.pow_le_pow_right (by norm_num) h.short)

theorem Sized.mul_lt_limit (h : Sized t l j k) {n : ℕ} (hn : n ≤ l.links.length) {w : ℤ} (hw : j + w < 1024) :
    (n : ℚ) * 2 ^ w < limit :=
  calc (n : ℚ) * 2 ^ w ≤ 2 ^ (j : ℤ) * 2 ^ w := by
        gcongr
        exact_mod_cast hn.trans h.links
    _ = 2 ^ (j + w) := (zpow_add₀ two_ne_zero _ _).symm
    _ < limit := zpow_lt_zpow_right₀ one_lt_two hw

/-- What chance would give to a community. -/
theorem Sized.within_expected (h : Sized t l j k) (labels : Array Nat) (c : Nat) :
    let members := (List.range l.size).filter fun i => labels.getD i 0 == c
    Within (t.penalty * Weight.sum (members.map l.outWeight) * Weight.sum (members.map l.inWeight) / l.total)
      (entering l labels c * 2 ^ (k + j)) := by
  intro members
  have hleast := h.least
  have hmost := h.most
  have hnodup : members.Nodup := List.nodup_range.filter _
  have hout : Within (Weight.sum (members.map l.outWeight)) (2 ^ (j : ℤ)) := by
    refine (is_sumAt h.plain h.links_le (·.source) hnodup).within ?_
    rw [Nat.abs_cast]
    exact_mod_cast (List.length_filter_le _ _).trans h.links
  have hin : Within (Weight.sum (members.map l.inWeight)) (entering l labels c) := by
    refine (is_sumAt h.plain h.links_le (·.target) hnodup).within ?_
    rw [Nat.abs_cast]
    refine Nat.cast_le.mpr (List.monotone_filter_right _ fun k hk => ?_).length_le
    exact (List.mem_filter.mp (List.contains_iff_mem.mp hk)).2
  have hfactor : Within (t.penalty * Weight.sum (members.map l.outWeight)) (2 ^ (k + j)) :=
    h.penalty.mul hout (zpow_add₀ two_ne_zero k j).ge (representable_zpow (by omega))
      (zpow_lt_zpow_right₀ one_lt_two (by omega))
  have hlimit := h.mul_lt_limit (entering_le l labels c) (show j + (k + j) < 1024 by omega)
  have hbound : Representable (entering l labels c * 2 ^ (k + j)) :=
    representable_mul_zpow ((entering_le l labels c).trans h.links_le) (by omega)
  exact (hfactor.mul hin (mul_comm _ _).le hbound hlimit).div (is_total h.plain h.links_le) h.nonempty hbound hlimit

theorem Sized.within_contribution (h : Sized t l j k) (labels : Array Nat) (c : Nat) :
    Within (contribution t l labels c) (entering l labels c * 2 ^ max (k + j + 1) 1) := by
  have hleast := h.least
  have hmost := h.most
  have hshort := h.short
  have hinside : Within (Weight.sum ((l.links.filter fun k =>
      labels.getD k.source 0 == c && labels.getD k.target 0 == c).map (·.weight))) (entering l labels c) := by
    refine (is_weight h.plain h.links_le _).within ?_
    rw [Nat.abs_cast]
    refine Nat.cast_le.mpr (List.monotone_filter_right _ fun k hk => ?_).length_le
    exact (Bool.and_eq_true_iff.mp hk).2
  -- Both parts are at most half of the bound.
  have hhalf : (1 : ℚ) + 2 ^ (k + j) ≤ 2 ^ max (k + j + 1) 1 :=
    calc (1 : ℚ) + 2 ^ (k + j) ≤ 2 ^ (max (k + j + 1) 1 - 1) + 2 ^ (max (k + j + 1) 1 - 1) := by
          gcongr
          · exact one_le_zpow₀ one_le_two (by omega)
          · norm_num
          · omega
      _ = 2 ^ max (k + j + 1) 1 := by
          rw [zpow_sub_one₀ two_ne_zero]
          ring
  refine hinside.sub (h.within_expected labels c) ?_ ?_ ?_
  · calc (entering l labels c : ℚ) + entering l labels c * 2 ^ (k + j)
        = entering l labels c * (1 + 2 ^ (k + j)) := by ring
      _ ≤ entering l labels c * 2 ^ max (k + j + 1) 1 := by gcongr
  · exact representable_mul_zpow ((entering_le l labels c).trans h.links_le) (by omega)
  · exact h.mul_lt_limit (entering_le l labels c) (by omega)

theorem sum_entering_le (l : Level Float) (labels : Array Nat) (count : ℕ) :
    ((List.range count).map (entering l labels)).sum ≤ l.links.length := by
  have hsum := sum_count l.links (fun k => labels.getD k.target 0) (List.nodup_range (n := count))
  exact hsum.trans_le (List.length_filter_le _ _)

/-- Modularity is finite when links and penalty are not too large. -/
theorem Sized.isFinite_modularity (h : Sized t l j k) (labels : List Nat) :
    (modularity t l labels).isFinite = true := by
  have hleast := h.least
  have hmost := h.most
  have hshort := h.short
  rw [modularity]
  split
  · dsimp only
    generalize ((labels.max?.map (· + 1)).getD 0) = count
    have hsum := sum_entering_le l labels.toArray count
    have hlimit := h.mul_lt_limit hsum (show j + max (k + j + 1) 1 < 1024 by omega)
    have hle := hsum.trans h.links_le
    have hwithin := within_sum (by omega) (fun c _ => h.within_contribution labels.toArray c) hle hlimit
    exact (hwithin.div (is_total h.plain h.links_le) h.nonempty (representable_mul_zpow hle (by omega)) hlimit).finite
  · exact is_zero.finite

/-! ### Resolutions that are too small -/

/-- Once the penalty is not finite, nothing that is computed from it is. -/
theorem not_isFinite_contribution (h : t.penalty.isFinite = false) (l : Level Float) (labels : Array Nat) (c : Nat) :
    (contribution t l labels c).isFinite = false :=
  isFinite_sub (Or.inr (isFinite_div _ (isFinite_mul (Or.inl (isFinite_mul (Or.inl h))))))

theorem not_isFinite_modularity {labels : List Nat} (h : t.penalty.isFinite = false)
    (hless : Weight.less 0 l.total = true) (hlabels : labels ≠ []) : (modularity t l labels).isFinite = false := by
  obtain ⟨top, htop⟩ := Option.isSome_iff_exists.mp (List.isSome_max?_of_mem (List.head_mem hlabels))
  have hzero : 0 ∈ List.range ((labels.max?.map (· + 1)).getD 0) := by
    rw [htop]
    exact List.mem_range.mpr (Nat.succ_pos top)
  rw [modularity, if_pos hless]
  exact isFinite_div _ (isFinite_sum (List.mem_map_of_mem hzero) (not_isFinite_contribution h l labels.toArray 0))

/-! ### The modularity of a graph -/

theorem less_total (hl : l.Plain) (hle : l.links.length ≤ 2 ^ 53) :
    Weight.less 0 l.total = true ↔ 0 < l.links.length := by
  have htotal := is_total hl hle
  refine (less_zero_iff htotal.finite).trans ?_
  rw [htotal.value_eq]
  exact Nat.cast_pos

theorem exists_two_pow {n : ℕ} (hpos : 0 < n) (hle : n ≤ 2 ^ 53) : ∃ j ≤ 53, n ≤ 2 ^ j ∧ 2 ^ j < 2 * n := by
  rcases Nat.eq_or_lt_of_le hpos with hone | hlt
  · exact ⟨0, by norm_num, by omega, by omega⟩
  · refine ⟨Nat.clog 2 n, Nat.clog_le_of_le_pow hle, Nat.le_pow_clog one_lt_two n, ?_⟩
    have hpred := Nat.pow_pred_clog_lt_self one_lt_two hlt
    have hclog : Nat.clog 2 n = (Nat.clog 2 n).pred + 1 := (Nat.succ_pred_eq_of_pos (Nat.clog_pos one_lt_two hlt)).symm
    rw [hclog, pow_succ]
    omega

/-- A resolution is enough for a number of links when the square of that number, divided by the resolution, is well
    below the limit. -/
theorem exists_sized (hl : l.Plain) (hpos : 0 < l.links.length) (hle : l.links.length ≤ 2 ^ 53)
    (hfinite : t.resolution.isFinite = true) (hres : 0 < value t.resolution)
    (h : 16 * (l.links.length : ℚ) ^ 2 ≤ limit * value t.resolution) : ∃ j k, Sized t l j k := by
  obtain ⟨k, hk, hk'⟩ := exists_mem_Ioc_zpow (one_div_pos.mpr hres) (one_lt_two (α := ℚ))
  obtain ⟨j, hj53, hj, hj'⟩ := exists_two_pow hpos hle
  rw [lt_div_iff₀ hres] at hk
  rw [div_le_iff₀ hres] at hk'
  have hsize : (2 : ℚ) ^ (k + 1 + 2 * j) < 2 ^ (1023 : ℤ) := by
    have hlinks : (2 : ℚ) ^ j < 2 * l.links.length := by exact_mod_cast hj'
    have hlimit : limit = 2 * 2 ^ (1023 : ℤ) := by
      rw [limit, ← zpow_one_add₀ two_ne_zero]
      norm_num
    calc (2 : ℚ) ^ (k + 1 + 2 * j) = 2 * 2 ^ k * (2 ^ j) ^ 2 := by
          rw [zpow_add₀ two_ne_zero, zpow_add_one₀ two_ne_zero, ← pow_mul, mul_comm j 2]
          norm_cast
          ring
      _ < 2 * 2 ^ k * (2 * l.links.length) ^ 2 := by gcongr
      _ = 2 ^ k / 2 * (16 * l.links.length ^ 2) := by ring
      _ ≤ 2 ^ k / 2 * (limit * value t.resolution) := by gcongr
      _ = 2 ^ k * value t.resolution * 2 ^ (1023 : ℤ) := by
          rw [hlimit]
          ring
      _ < 1 * 2 ^ (1023 : ℤ) := by gcongr
      _ = 2 ^ (1023 : ℤ) := one_mul _
  have hleast : (2 : ℚ) ^ (-1024 : ℤ) < 2 ^ (k + 1) := by
    have hbelow : value t.resolution < limit := (le_abs_self _).trans_lt (abs_value_lt hfinite)
    calc (2 : ℚ) ^ (-1024 : ℤ) = 1 / limit := by rw [limit, zpow_neg, one_div]
      _ < 2 ^ (k + 1) := by
          rw [div_lt_iff₀ limit_pos]
          exact hk'.trans_lt (by gcongr)
  have hmost := (zpow_lt_zpow_iff_right₀ (one_lt_two (α := ℚ))).mp hsize
  have hleast := (zpow_lt_zpow_iff_right₀ (one_lt_two (α := ℚ))).mp hleast
  refine ⟨j, k + 1, hl, hpos, hj, hj53, ?_, by omega, by omega⟩
  have hresult := results_div is_one.finite hfinite hres.ne'
  rw [is_one.value_eq] at hresult
  refine hresult.within (representable_zpow (by omega)) ?_ (zpow_lt_zpow_right₀ one_lt_two (by omega))
  rwa [abs_of_pos (one_div_pos.mpr hres), div_le_iff₀ hres]

theorem not_isFinite_penalty (hfinite : t.resolution.isFinite = true) (hres : 0 < value t.resolution)
    (h : limit * value t.resolution ≤ 1) : t.penalty.isFinite = false := by
  have hresult := results_div is_one.finite hfinite hres.ne'
  rw [is_one.value_eq] at hresult
  exact hresult.not_isFinite ((le_div_iff₀ hres).mpr h)

section Graph
variable {g : Graph} (hfinite : t.resolution.isFinite = true) (hres : 0 < value t.resolution)
variable (hle : g.edgeCount ≤ 2 ^ 53)
include hfinite hres hle

/-- The modularity of a graph is finite when the resolution is enough for its edges. -/
theorem isFinite_detect (h : 16 * (g.edgeCount : ℚ) ^ 2 ≤ limit * value t.resolution) :
    (detect t g).modularity.isFinite = true := by
  have hl := Level.plain_ofGraph g
  rw [← Level.length_links_ofGraph] at hle h
  rw [detect]
  split
  · exact is_zero.finite
  · rcases Nat.eq_zero_or_pos (Level.ofGraph g : Level Float).links.length with hzero | hpos
    · -- Without any edge modularity is zero by definition.
      have hless : ¬Weight.less 0 (Level.ofGraph g : Level Float).total = true := fun h =>
        absurd ((less_total hl hle).mp h) (by omega)
      dsimp only
      rw [modularity, if_neg hless]
      exact is_zero.finite
    · obtain ⟨j, k, hsized⟩ := exists_sized hl hpos hle hfinite hres h
      exact hsized.isFinite_modularity _

/-- The modularity of a graph with edges is not finite when the resolution is too small to be divided by. -/
theorem not_isFinite_detect (hpos : 0 < g.edgeCount) (h : limit * value t.resolution ≤ 1) :
    (detect t g).modularity.isFinite = false := by
  have hl := Level.plain_ofGraph g
  have hmodules := Graph.modules_ne_nil hpos
  rw [← Level.length_links_ofGraph] at hle hpos
  rw [detect, if_neg]
  · refine not_isFinite_modularity (not_isFinite_penalty hfinite hres h) ((less_total hl hle).mpr hpos) ?_
    rw [← List.length_pos_iff, length_optimize (Level.closed_ofGraph g), Level.size_ofGraph]
    exact List.length_pos_iff.mpr hmodules
  · exact fun hempty => hmodules (Graph.isEmpty_iff.mp hempty)

end Graph

end Community
end ModuleAudit
