import ModuleAudit.Graph.Cycles
import ModuleAudit.Proofs.Graph.Basic
import ModuleAudit.Proofs.Graph.Search

/-! Strongly connected components. Two modules belong together when each can be reached from the other. The
    components that a graph computes are the classes of this relation, and a component holds a cycle exactly when
    its modules can be reached from themselves. -/

namespace ModuleAudit.Graph

variable {g : Graph} {a b m : String} {c : List String} {parts : List (List String)}

/-- A way of dependencies leads from `a` to `b`, or they are the same. -/
def Reaches (g : Graph) (a b : String) : Prop := Relation.ReflTransGen g.Edge a b

/-- A way of one or more dependencies leads from `a` to `b`. -/
def DependsOn (g : Graph) (a b : String) : Prop := Relation.TransGen g.Edge a b

/-- Each of two modules can be reached from the other. -/
def Mutual (g : Graph) (a b : String) : Prop := g.Reaches a b ∧ g.Reaches b a

theorem Mutual.refl (a : String) : g.Mutual a a := ⟨.refl, .refl⟩

theorem Mutual.symm (h : g.Mutual a b) : g.Mutual b a := ⟨h.2, h.1⟩

theorem Mutual.trans {d : String} (h₁ : g.Mutual a b) (h₂ : g.Mutual b d) : g.Mutual a d :=
  ⟨Relation.ReflTransGen.trans h₁.1 h₂.1, Relation.ReflTransGen.trans h₂.2 h₁.2⟩

theorem Mutual.dependsOn_self (h : g.Mutual a b) (hb : g.DependsOn b b) : g.DependsOn a a :=
  (Relation.TransGen.trans_right h.1 hb).trans_left h.2

theorem mutual_iff : g.Mutual a b ↔ a = b ∨ (g.DependsOn a b ∧ g.DependsOn b a) := by
  constructor
  · rintro ⟨hab, hba⟩
    rcases Relation.reflTransGen_iff_eq_or_transGen.mp hab with rfl | hab'
    · exact Or.inl rfl
    · rcases Relation.reflTransGen_iff_eq_or_transGen.mp hba with rfl | hba'
      · exact Or.inl rfl
      · exact Or.inr ⟨hab', hba'⟩
  · rintro (rfl | ⟨hab, hba⟩)
    · exact Mutual.refl a
    · exact ⟨hab.to_reflTransGen, hba.to_reflTransGen⟩

/-- The strongly connected components, in some order and each with its modules in some order: every module stands in
    one of the parts, and the parts are the classes of the modules that belong together. -/
structure SplitsInto (g : Graph) (parts : List (List String)) : Prop where
  perm : parts.flatten.Perm g.modules
  nonempty : ∀ c ∈ parts, c ≠ []
  mem_iff : ∀ c ∈ parts, ∀ a ∈ c, ∀ b ∈ g.modules, b ∈ c ↔ g.Mutual a b

/-! ### The computed components -/

theorem mem_dependsOn (ha : a ∈ g.modules) : b ∈ (g.dependsOn.get? a).getD [] ↔ g.DependsOn a b := by
  obtain ⟨p, hp⟩ := ModuleMap.mem_keys_iff.mp ha
  have hstep : Reach.Step g.successors = g.Edge := by
    funext x y
    exact propext mem_successors
  rw [dependsOn, ModuleMap.get?_mapValues, hp, Option.map_some, Option.getD_some,
    Reach.mem_after_iff (fun x _ => successors_subset g x) (g.nodeCount_eq ▸ Nat.le_refl _) ha, hstep]
  rfl

theorem mem_component (hm : m ∈ g.modules) : a ∈ g.component g.dependsOn m ↔ a ∈ g.modules ∧ g.Mutual m a := by
  rw [component, List.mem_filter]
  refine and_congr_right fun ha => ?_
  rw [Bool.or_eq_true, beq_iff_eq, entangled, Bool.and_eq_true, List.contains_iff_mem, List.contains_iff_mem,
    mem_dependsOn hm, mem_dependsOn ha, mutual_iff, eq_comm]

theorem mem_components : c ∈ g.components ↔ ∃ m ∈ g.modules, g.component g.dependsOn m = c := by
  rw [components, List.mem_eraseDups, List.mem_map]

/-- Components that share a module are equal: both list its class in the order of insertion. -/
theorem component_eq_of_mem (hm : m ∈ g.modules) (ha : a ∈ g.component g.dependsOn m) :
    g.component g.dependsOn a = g.component g.dependsOn m := by
  obtain ⟨ha', hma⟩ := (mem_component hm).mp ha
  refine List.filter_congr fun b hb => ?_
  have same (x : String) (hx : x ∈ g.modules) :
      (b == x || entangled g.dependsOn x b) = true ↔ g.Mutual x b := by
    have := mem_component (a := b) hx
    rw [component, List.mem_filter] at this
    simpa [hb] using this
  rw [Bool.eq_iff_iff, same a ha', same m hm]
  exact ⟨hma.trans, hma.symm.trans⟩

theorem components_splitsInto (g : Graph) : g.SplitsInto g.components where
  perm := by
    refine (List.perm_ext_iff_of_nodup ?_ g.modules_nodup).mpr fun a => ?_
    · rw [List.nodup_flatten]
      refine ⟨fun c hc => ?_, (Lists.nodup_eraseDups _).imp_of_mem fun {c d} hc hd hne x hxc hxd => ?_⟩
      · obtain ⟨m, -, rfl⟩ := mem_components.mp hc
        exact g.modules_nodup.filter _
      · obtain ⟨m, hm, rfl⟩ := mem_components.mp hc
        obtain ⟨n, hn, rfl⟩ := mem_components.mp hd
        exact hne ((component_eq_of_mem hm hxc).symm.trans (component_eq_of_mem hn hxd))
    · rw [List.mem_flatten]
      constructor
      · rintro ⟨c, hc, hac⟩
        obtain ⟨m, hm, rfl⟩ := mem_components.mp hc
        exact ((mem_component hm).mp hac).1
      · intro ha
        exact ⟨_, mem_components.mpr ⟨a, ha, rfl⟩, (mem_component ha).mpr ⟨ha, Mutual.refl a⟩⟩
  nonempty := by
    intro c hc
    obtain ⟨m, hm, rfl⟩ := mem_components.mp hc
    exact List.ne_nil_of_mem ((mem_component hm).mpr ⟨hm, Mutual.refl m⟩)
  mem_iff := by
    intro c hc a ha b hb
    obtain ⟨m, hm, rfl⟩ := mem_components.mp hc
    obtain ⟨-, hma⟩ := (mem_component hm).mp ha
    rw [mem_component hm]
    exact ⟨fun h => hma.symm.trans h.2, fun h => ⟨hb, hma.trans h⟩⟩

/-! ### Components that hold a cycle -/

namespace SplitsInto

theorem mem_modules (h : g.SplitsInto parts) (hc : c ∈ parts) (ha : a ∈ c) : a ∈ g.modules :=
  h.perm.mem_iff.mp (List.mem_flatten.mpr ⟨c, hc, ha⟩)

theorem mutual_of_mem (h : g.SplitsInto parts) (hc : c ∈ parts) (ha : a ∈ c) (hb : b ∈ c) : g.Mutual a b :=
  (h.mem_iff c hc a ha b (h.mem_modules hc hb)).mp hb

theorem exists_mem (h : g.SplitsInto parts) (ha : a ∈ g.modules) : ∃ c ∈ parts, a ∈ c :=
  List.mem_flatten.mp (h.perm.mem_iff.mpr ha)

theorem nodup (h : g.SplitsInto parts) : parts.flatten.Nodup := h.perm.nodup_iff.mpr g.modules_nodup

/-- A component holds a cycle exactly when its modules depend on themselves. -/
theorem circular_iff (h : g.SplitsInto parts) (hc : c ∈ parts) (ha : a ∈ c) :
    g.circular c = true ↔ g.DependsOn a a := by
  have hnodup : c.Nodup := (List.nodup_flatten.mp h.nodup).1 c hc
  rw [circular, Bool.or_eq_true, decide_eq_true_iff]
  constructor
  · rintro (hlen | hloop)
    · obtain ⟨b, hb, hne⟩ : ∃ b ∈ c, b ≠ a := by
        by_contra hall
        push Not at hall
        have hsub : c ⊆ [a] := fun x hx => List.mem_singleton.mpr (hall x hx)
        have := (List.subperm_of_subset hnodup hsub).length_le
        simp at this
        omega
      rcases mutual_iff.mp (h.mutual_of_mem hc ha hb) with rfl | ⟨hab, hba⟩
      · exact absurd rfl hne
      · exact hab.trans hba
    · rw [Option.any_eq_true] at hloop
      obtain ⟨m, hm, hmm⟩ := hloop
      exact (h.mutual_of_mem hc ha (List.mem_of_head? hm)).dependsOn_self (.single (hasEdge_iff.mp hmm))
  · intro haa
    by_cases hlen : 1 < c.length
    · exact Or.inl hlen
    · obtain ⟨m, rfl⟩ : ∃ m, c = [m] := List.length_eq_one_iff.mp
        (by have := List.length_pos_of_mem ha; omega)
      obtain rfl := List.mem_singleton.mp ha
      obtain ⟨b, hab, hba⟩ := Relation.TransGen.head'_iff.mp haa
      -- The first step leads to a module of the component, which is the only one.
      have hb : b ∈ [a] := (h.mem_iff _ hc a ha b hab.mem_modules.2).mpr ⟨.single hab, hba⟩
      rw [List.mem_singleton.mp hb] at hab
      exact Or.inr (by simpa using hasEdge_iff.mpr hab)

end SplitsInto
end ModuleAudit.Graph
