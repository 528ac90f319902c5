import ModuleAudit.Extraction.Basic
import ModuleAudit.Proofs.Metric.Coupling
import ModuleAudit.Proofs.Renaming.Cycles

/-! Trees with other names. What is read off a tree is read off its entries in their order, by comparing names, so that
    it only gets other names too. Two trees that name their modules differently are told apart by names that stand in
    them; what a renaming does to all other names does not matter, and it can always be taken to keep these apart. -/

namespace ModuleAudit

variable {r : String → String}

/-! ### Renamings -/

/-- A renaming that keeps some names apart can be changed at all others, to keep any two names apart and to leave none
    of the others as it is. -/
theorem exists_injective {names : List String} (h : Set.InjOn r {m | m ∈ names}) :
    ∃ r' : String → String, r'.Injective ∧ (∀ m ∈ names, r' m = r m) ∧ ∀ m, r' m = m → m ∈ names := by
  -- The others are put behind something that is longer than every new name.
  obtain ⟨front, hfront⟩ : ∃ front : String, front.length = (names.map fun m => (r m).length).sum + 1 :=
    ⟨String.ofList (List.replicate ((names.map fun m => (r m).length).sum + 1) 'x'), by simp⟩
  have hshort : ∀ m ∈ names, (r m).length < front.length := fun m hm => by
    rw [hfront]
    exact Nat.lt_succ_of_le (List.le_sum_of_mem (List.mem_map_of_mem hm))
  have hapart : ∀ m ∈ names, ∀ n, r m ≠ front ++ n := fun m hm n heq => by
    have hlength := congrArg String.length heq
    rw [String.length_append] at hlength
    have := hshort m hm
    omega
  refine ⟨fun m => if m ∈ names then r m else front ++ m, fun a b hab => ?_, fun m hm => if_pos hm, fun m hm => ?_⟩
  · dsimp only at hab
    split_ifs at hab with ha hb hb
    · exact h ha hb hab
    · exact absurd hab (hapart a ha b)
    · exact absurd hab.symm (hapart b hb a)
    · exact (String.append_right_inj front).mp hab
  · by_contra hnot
    dsimp only at hm
    rw [if_neg hnot] at hm
    have hlength := congrArg String.length hm
    rw [String.length_append] at hlength
    omega

namespace Tree

variable {t t' : Tree} {m : String}

/-- The tree with new names. -/
def rename (r : String → String) (t : Tree) : Tree := .ofList (t.toList.map (Prod.map r (List.map r)))

/-- The modules and what they depend on. -/
def names (t : Tree) : List String := t.toList.flatMap fun e => e.1 :: e.2

/-- The second tree has the entries of the first one, with new names. -/
abbrev Renamed (r : String → String) (t t' : Tree) : Prop := ModuleMap.Renamed r (List.map r) t t'

theorem renamed_rename (hr : r.Injective) (t : Tree) : t.Renamed r (t.rename r) :=
  ModuleMap.renamed_ofList hr (List.map r) t

theorem map_entries_congr {r' : String → String} (h : ∀ m ∈ t.names, r m = r' m) :
    t.toList.map (Prod.map r (List.map r)) = t.toList.map (Prod.map r' (List.map r')) := by
  have hnames : ∀ e ∈ t.toList, ∀ m ∈ e.1 :: e.2, r m = r' m := fun e he m hm =>
    h m (List.mem_flatMap.mpr ⟨e, he, hm⟩)
  refine List.map_congr_left fun e he => ?_
  exact Prod.ext (hnames e he _ List.mem_cons_self)
    (List.map_congr_left fun m hm => hnames e he m (List.mem_cons_of_mem _ hm))

theorem rename_congr {r' : String → String} (h : ∀ m ∈ t.names, r m = r' m) : t.rename r = t.rename r' :=
  congrArg ModuleMap.ofList (map_entries_congr h)

theorem renamed_self (h : ∀ m ∈ t.names, r m = m) : t.Renamed r t := by
  have hsame : t.toList.map (Prod.map r (List.map r)) = t.toList.map (Prod.map id (List.map id)) := map_entries_congr h
  refine Eq.trans ?_ hsame.symm
  simp

namespace Renamed

theorem congr {r' : String → String} (h : t.Renamed r t') (hr : ∀ m ∈ t.names, r m = r' m) : t.Renamed r' t' :=
  Eq.trans h (map_entries_congr hr)

theorem dependencies (h : t.Renamed r t') : t'.dependencies = t.dependencies.map (Prod.map r r) := by
  rw [Tree.dependencies, h, List.flatMap_map, Tree.dependencies, List.map_flatMap]
  simp only [Prod.map_fst, Prod.map_snd, List.map_map]
  rfl

theorem listing (h : t.Renamed r t') : t'.listing = t.listing.rename r := by
  rw [Tree.listing, Listing.rename, h.keys, h.dependencies]
  rfl

theorem names (h : t.Renamed r t') : t'.names = t.names.map r := by
  rw [Tree.names, h, List.flatMap_map, Tree.names, List.map_flatMap]
  rfl

variable (hr : r.Injective)
include hr

theorem graph (h : t.Renamed r t') : t.graph.Renamed r t'.graph := by
  rw [Tree.graph, Tree.graph, h.listing]
  exact Graph.renamed_ofListing hr t.listing

theorem getD_importers (h : t.Renamed r t') (m : String) : t'.importers.getD (r m) 0 = t.importers.getD m 0 := by
  have himports (e : String × List String) : decide (r m ∈ (Prod.map r (List.map r) e).2) = decide (m ∈ e.2) :=
    decide_eq_decide.mpr (List.mem_map_of_injective hr)
  rw [Tree.getD_importers, h, List.filter_map, List.length_map, Tree.getD_importers]
  simp only [Function.comp_def, himports]

theorem couplings (h : t.Renamed r t') : t.couplings.Renamed r id t'.couplings :=
  h.rebuild fun e _ => by
    rw [h.getD_importers hr, Lists.eraseDups_map _ fun _ _ _ _ hab => hr hab, List.length_map, id_eq]

theorem orphans (h : t.Renamed r t') : t'.orphans = t.orphans.map r := by
  have hdepends (m : String) : (t.dependencies.map (Prod.map r r)).any (fun d => d.2 == r m && d.1 != r m) =
      t.dependencies.any fun d => d.2 == m && d.1 != m := by
    rw [List.any_map]
    refine congrArg t.dependencies.any (funext fun d => ?_)
    simp only [Function.comp_apply, Prod.map_fst, Prod.map_snd, bne, hr.beq_eq]
  rw [Tree.orphans, h.keys, h.dependencies, List.filter_map, Tree.orphans]
  simp only [Function.comp_def, hdepends]

omit hr in
theorem leaves (h : t.Renamed r t') : t'.leaves = t.leaves.map r := by
  rw [Tree.leaves, h, List.filter_map, Tree.leaves, List.map_map, List.map_map]
  simp only [Function.comp_def, Prod.map_fst, Prod.map_snd, List.isEmpty_map]

end Renamed

/-! ### Any order of the names in a list -/

/-- The couplings of a tree, with the importers counted over the given names. -/
def couplingsOver (t : Tree) (imports : List String) : ModuleMap Coupling :=
  let importers := imports.foldl countImporter ∅
  t.rebuild fun m deps => Coupling.ofCounts deps.eraseDups.length (importers.getD m 0)

theorem couplingsOver_eq {imports : List String} (h : imports.Perm (t.toList.flatMap (·.2.eraseDups))) :
    t.couplingsOver imports = t.couplings := by
  have himporters : t.importers = (t.toList.flatMap (·.2.eraseDups)).foldl countImporter ∅ := List.foldl_flatMap.symm
  have hcount (m : String) : (imports.foldl countImporter ∅).getD m 0 = t.importers.getD m 0 := by
    rw [himporters, getD_foldl_countImporter, getD_foldl_countImporter, h.count_eq]
  rw [couplingsOver, couplings]
  simp only [hcount]

end Tree
end ModuleAudit
