import Mathlib.Algebra.Order.Field.Basic
import ModuleAudit.Proofs.Community.Gain

/-! The ascent of the search, in exact arithmetic. Every move raises the modularity of the communities by more than the
    tolerance, as a share of the whole weight; a contraction keeps it; so the search never falls below the modularity
    that it starts with. -/

namespace ModuleAudit.Community

variable {l base : Level Rat} {t : Tuning Rat} {s : Moving Rat} {membership : List Nat} {label label' : Nat → Nat}
  {i c : Nat}

namespace Level

/-- The modularity of the communities that labels give: their surplus as a share of the whole weight. -/
def quality (l : Level Rat) (t : Tuning Rat) (label : Nat → Nat) : Rat := l.surplus t (same label) / l.total

theorem quality_congr (hl : l.Closed)
    (h : ∀ a < l.size, ∀ b < l.size, (label a = label b ↔ label' a = label' b)) :
    l.quality t label = l.quality t label' := by
  rw [quality, quality, surplus_congr hl fun a ha b hb => ?_]
  simp only [same, h a ha b hb]

theorem quality_move (l : Level Rat) (t : Tuning Rat) (label : Nat → Nat) (i c : Nat) :
    l.quality t (fun a => if a = i then c else label a) = l.quality t label +
      (l.surplus t (touch label i c) - l.surplus t (touch label i (label i))) / l.total := by
  rw [quality, quality, same_move, map_add, map_sub, add_div]

end Level

/-! ### Moves -/

namespace Moving

/-- A node that moves raises the modularity by more than the tolerance. -/
theorem quality_of_moved (hl : l.Closed) (hpos : 0 < l.total) (h : Reachable t l s) (hi : i < l.size)
    (hmoved : (s.visit t l i).2 = true) :
    l.quality t s.label + Weight.tolerance / l.total < l.quality t (s.visit t l i).1.label := by
  rw [label_visit_eq (h.size_labels ▸ hi), Level.quality_move]
  have := surplus_of_moved hl h hi hmoved
  exact add_lt_add_right (div_lt_div_of_pos_right (lt_sub_iff_add_lt'.mpr this) hpos) _

theorem Reachable.le_quality (hl : l.Closed) (hpos : 0 < l.total) (h : Reachable t l s) :
    l.quality t id ≤ l.quality t s.label := by
  induction h with
  | start => exact (Level.quality_congr hl fun a ha b hb => by rw [label_start ha, label_start hb]; rfl).le
  | @visit s i hi hs ih =>
    refine ih.trans ?_
    by_cases hmoved : (s.visit t l i).2 = true
    · have hgain := quality_of_moved hl hpos hs hi hmoved
      have htol : 0 ≤ Weight.tolerance / l.total := div_nonneg tolerance_nonneg hpos.le
      exact (le_add_of_nonneg_right htol).trans hgain.le
    · have hsame : (s.visit t l i).1.label = s.label :=
        funext fun _ => label_visit_of_not_moved (hs.size_labels ▸ hi) (by simpa using hmoved)
      rw [hsame]

end Moving

/-! ### The levels reached -/

namespace Level

/-- Leaving a level does not lower the modularity that its nodes have by themselves. -/
theorem le_quality_number (hl : l.Closed) (hpos : 0 < l.total) : l.quality t id ≤ l.quality t (l.number t) := by
  refine ((Moving.run_reachable t l).le_quality hl hpos).trans_eq ?_
  exact quality_congr hl fun a ha b hb => (number_eq_iff ha hb).symm

end Level

namespace Reached

theorem nonneg (h : Reached t base l membership) (hnonneg : base.Nonneg) : l.Nonneg := by
  induction h with
  | base => exact hnonneg
  | contract _ ih => exact ih.contract

section
variable (hbase : base.Closed) (h : Reached t base l membership)
include hbase h

theorem total_eq : l.total = base.total := by
  induction h with
  | base => rfl
  | contract h ih => rw [Level.total_contract (h.lifted hbase).closed, ih]

/-- The surplus in a level reached is that of the parts which its nodes have in the base. -/
theorem surplus_eq (F : Pattern) :
    l.surplus t F = base.surplus t fun a b => F (membership.getD a 0) (membership.getD b 0) := by
  induction h generalizing F with
  | base =>
    refine Level.surplus_congr hbase fun a ha b hb => ?_
    simp [List.getD_eq_getElem?_getD, ha, hb]
  | @contract l membership h ih =>
    have hlift := h.lifted hbase
    rw [Level.surplus_contract hlift.closed, ih]
    refine Level.surplus_congr hbase fun a ha b hb => ?_
    rw [hlift.getD_map _ ha, hlift.getD_map _ hb]

theorem quality_eq (label : Nat → Nat) : l.quality t label = base.quality t fun a => label (membership.getD a 0) := by
  rw [Level.quality, Level.quality, h.surplus_eq hbase, h.total_eq hbase]
  rfl

theorem le_quality (hpos : 0 < base.total) : base.quality t id ≤ base.quality t (membership.getD · 0) := by
  induction h with
  | base =>
    refine (Level.quality_congr hbase fun a ha b hb => ?_).le
    simp [List.getD_eq_getElem?_getD, ha, hb]
  | @contract l membership h ih =>
    have hlift := h.lifted hbase
    calc base.quality t id
        ≤ base.quality t (membership.getD · 0) := ih
      _ = l.quality t id := (h.quality_eq hbase id).symm
      _ ≤ l.quality t (l.number t) := Level.le_quality_number hlift.closed (h.total_eq hbase ▸ hpos)
      _ = base.quality t fun a => l.number t (membership.getD a 0) := h.quality_eq hbase _
      _ = base.quality t ((membership.map (l.number t)).getD · 0) :=
        Level.quality_congr hbase fun a ha b hb => by rw [hlift.getD_map _ ha, hlift.getD_map _ hb]

end

end Reached

end ModuleAudit.Community
