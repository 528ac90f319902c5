import Mathlib.Data.List.Sort
import ModuleAudit.Proofs.Graph.Cycles

/-! The cycles of a graph are the same in whatever order its components come, and the modules in each of them. A cycle
    starts at the earliest module of a component, and a search among the members of the component asks only whether a
    module is one of them. -/

namespace ModuleAudit

namespace Reach

variable {α : Type} [DecidableEq α] {next : α → List α} {start : α} {members members' : List α}

theorem wayBack?_congr (h : ∀ b, b ∈ members ↔ b ∈ members') :
    ∀ (steps : Nat) (queue : List (α × List α)) (seen : List α),
      wayBack? next start members steps queue seen = wayBack? next start members' steps queue seen
  | 0, _, _ => rfl
  | _ + 1, [], _ => rfl
  | steps + 1, (a, before) :: queue, seen => by
    have hcontains (b : α) : members.contains b = members'.contains b := by
      rw [Bool.eq_iff_iff, List.contains_iff_mem, List.contains_iff_mem, h]
    rw [wayBack?, wayBack?]
    simp only [fresh, hcontains]
    split
    · rfl
    · exact wayBack?_congr h steps _ _

theorem shortestCycle?_perm (h : members.Perm members') :
    shortestCycle? next start members = shortestCycle? next start members' := by
  rw [shortestCycle?_eq, shortestCycle?_eq, h.length_eq]
  exact wayBack?_congr (fun b => h.mem_iff) _ _ _

end Reach

namespace Graph

variable {g : Graph} {a b m : String} {i : Nat} {parts parts' : List (List String)} {s : Nat × List String}

/-- The module at a place is circular, and the earliest of those that belong together with it. -/
def Leads (g : Graph) (i : Nat) : Prop :=
  ∃ m, g.modules[i]? = some m ∧ g.DependsOn m m ∧ ∀ b ∈ g.modules, g.Mutual m b → i ≤ g.modules.idxOf b

/-- The cycle that is reported for the component of the module at a place. -/
def cycleAt (g : Graph) (i : Nat) : Option Cycle := do
  let m ← g.modules[i]?
  Reach.shortestCycle? g.successors m (g.component g.dependsOn m)

namespace SplitsInto

/-- The earliest module of a start, at whose place the start is. -/
theorem exists_earliest (h : g.SplitsInto parts) (hs : s ∈ g.starts parts) :
    ∃ m ∈ s.2, g.modules[s.1]? = some m ∧ ∀ b ∈ s.2, s.1 ≤ g.modules.idxOf b := by
  obtain ⟨m, hm, -, hleast, _, -, hloop⟩ := h.exists_cycle hs
  exact ⟨m, hloop.subset (List.mem_of_head? hloop.head), hm, hleast⟩

theorem mem_places_iff (h : g.SplitsInto parts) : i ∈ (g.starts parts).map Prod.fst ↔ g.Leads i := by
  constructor
  · intro hi
    obtain ⟨s, hs, rfl⟩ := List.mem_map.mp hi
    obtain ⟨m, hm, hplace, hleast⟩ := h.exists_earliest hs
    refine ⟨m, hplace, h.dependsOn_self hs hm, fun b hb hmb => hleast b ?_⟩
    exact (h.mem_iff _ (h.mem_parts hs) m hm b hb).mpr hmb
  · rintro ⟨m, hplace, hmm, hleast⟩
    obtain ⟨s, hs, hm⟩ := h.exists_start hmm
    obtain ⟨n, hn, hplace', hleast'⟩ := h.exists_earliest hs
    have hidx := idxOf_eq hplace
    have hidx' := idxOf_eq hplace'
    have hle := hleast n (h.mem_modules (h.mem_parts hs) hn) (h.mutual_of_mem (h.mem_parts hs) hm hn)
    have hge := hleast' m hm
    exact List.mem_map.mpr ⟨s, hs, by omega⟩

theorem pairwise_places (h : g.SplitsInto parts) : ((g.starts parts).map Prod.fst).Pairwise (· < ·) := by
  rw [List.pairwise_map]
  refine h.pairwise_starts.imp_of_mem fun {s t} hs ht hst => lt_of_le_of_ne hst.1 fun heq => ?_
  obtain ⟨m, hm, hplace, -⟩ := h.exists_earliest hs
  obtain ⟨n, hn, hplace', -⟩ := h.exists_earliest ht
  rw [heq, hplace', Option.some.injEq] at hplace
  exact hst.2 hm (hplace ▸ hn)

/-- The members of a start are those of the component of its earliest module. -/
theorem perm_component (h : g.SplitsInto parts) (hs : s ∈ g.starts parts) (hm : m ∈ s.2) :
    s.2.Perm (g.component g.dependsOn m) := by
  have hc := h.mem_parts hs
  refine (List.perm_ext_iff_of_nodup ((List.nodup_flatten.mp h.nodup).1 _ hc) (g.modules_nodup.filter _)).mpr fun b => ?_
  rw [← component, mem_component (h.mem_modules hc hm)]
  constructor
  · exact fun hb => ⟨h.mem_modules hc hb, h.mutual_of_mem hc hm hb⟩
  · exact fun hb => (h.mem_iff _ hc m hm b hb.1).mpr hb.2

theorem cyclesAmong_eq_filterMap (h : g.SplitsInto parts) :
    g.cyclesAmong parts = ((g.starts parts).map Prod.fst).filterMap g.cycleAt := by
  rw [cyclesAmong, List.filterMap_map]
  refine List.filterMap_congr fun s hs => ?_
  obtain ⟨m, hm, hplace, -⟩ := h.exists_earliest hs
  simp only [Function.comp_apply, cycleAt, hplace, Option.bind_eq_bind, Option.bind_some]
  exact Reach.shortestCycle?_perm (h.perm_component hs hm)

/-- In whatever order the components come, and the modules in them, the cycles are the same. -/
theorem cyclesAmong_eq (h : g.SplitsInto parts) (h' : g.SplitsInto parts') :
    g.cyclesAmong parts = g.cyclesAmong parts' := by
  have hplaces : (g.starts parts).map Prod.fst = (g.starts parts').map Prod.fst :=
    h.pairwise_places.eq_of_mem_iff h'.pairwise_places fun i => by rw [h.mem_places_iff, h'.mem_places_iff]
  rw [h.cyclesAmong_eq_filterMap, h'.cyclesAmong_eq_filterMap, hplaces]

end SplitsInto

theorem cyclesAmong_eq_cycles (h : g.SplitsInto parts) : g.cyclesAmong parts = g.cycles :=
  h.cyclesAmong_eq g.components_splitsInto

end Graph
end ModuleAudit
