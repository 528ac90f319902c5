import ModuleAudit.Graph.Cycles
import ModuleAudit.Proofs.Graph.Trail
import ModuleAudit.Proofs.Renaming.Graph

/-! The cycles of a graph with other names. A search compares what it finds with what it has seen, and takes the rest in
    the order in which it is listed; the components are told apart by their members and ordered by their places. The
    searches therefore go the same ways under the new names, and the same cycles start at the same modules. -/

namespace ModuleAudit

namespace Reach

variable {α β : Type} [DecidableEq α] [DecidableEq β] {r : α → β} {next : α → List α} {next' : β → List β}

section
variable (hr : r.Injective) (hnext : ∀ a, next' (r a) = (next a).map r)
include hr hnext

theorem eraseDups_next (a : α) : (next' (r a)).eraseDups = (next a).eraseDups.map r := by
  rw [hnext, Lists.eraseDups_map _ fun _ _ _ _ hab => hr hab]

theorem reachable_map : ∀ (steps : Nat) (todo seen : List α),
    reachable next' steps (todo.map r) (seen.map r) = (reachable next steps todo seen).map r
  | 0, _, _ => rfl
  | _ + 1, [], _ => rfl
  | steps + 1, a :: todo, seen => by
    have hfresh : (next' (r a)).eraseDups.filter (!(seen.map r).contains ·) =
        ((next a).eraseDups.filter (!seen.contains ·)).map r := by
      rw [eraseDups_next hr hnext, List.filter_map]
      simp only [Function.comp_def, Lists.contains_map hr]
    rw [List.map_cons, reachable, reachable, hfresh, ← List.map_append, ← List.map_append]
    exact reachable_map steps _ _

theorem after_map (steps : Nat) (a : α) : after next' steps (r a) = (after next steps a).map r := by
  rw [after, after, eraseDups_next hr hnext]
  exact reachable_map hr hnext steps _ _

theorem wayBack?_map (start : α) (members : List α) : ∀ (steps : Nat) (queue : List (α × List α)) (seen : List α),
    wayBack? next' (r start) (members.map r) steps (queue.map (Prod.map r (List.map r))) (seen.map r) =
      (wayBack? next start members steps queue seen).map (List.map r)
  | 0, _, _ => rfl
  | _ + 1, [], _ => rfl
  | steps + 1, (a, before) :: queue, seen => by
    have hfresh : fresh (members.map r) (seen.map r) (next' (r a)) = (fresh members seen (next a)).map r := by
      rw [fresh, fresh, eraseDups_next hr hnext, List.filter_map]
      simp only [Function.comp_def, Lists.contains_map hr]
    have hclosed : (next' (r a)).contains (r start) = (next a).contains start := by rw [hnext, Lists.contains_map hr]
    rw [List.map_cons, Prod.map_apply, wayBack?, wayBack?, hclosed]
    split
    · rw [Option.map_some, List.map_reverse, List.map_cons]
    · dsimp only
      rw [hfresh, ← wayBack?_map start members steps, List.map_append, List.map_append, List.map_map, List.map_map]
      rfl

theorem shortestCycle?_map (start : α) (members : List α) :
    shortestCycle? next' (r start) (members.map r) = (shortestCycle? next start members).map (List.map r) := by
  rw [shortestCycle?_eq, shortestCycle?_eq, List.length_map]
  exact wayBack?_map hr hnext start members _ [(start, [])] [start]

end
end Reach

namespace Graph.Renamed

variable {r : String → String} {g g' : Graph} {reach reach' : ModuleMap (List String)} {a b m : String}

variable (hr : r.Injective) (h : Renamed r g g')
include hr h

theorem dependsOn : g.dependsOn.Renamed r (List.map r) g'.dependsOn :=
  h.nodes.mapValues fun e _ => by
    rw [h.nodeCount]
    exact Reach.after_map hr (h.successors hr) _ _

omit h in
theorem entangled (hreach : reach.Renamed r (List.map r) reach') (a b : String) :
    Graph.entangled reach' (r a) (r b) = Graph.entangled reach a b := by
  have hcontains (a b : String) : ((reach'.get? (r a)).getD []).contains (r b) =
      ((reach.get? a).getD []).contains b := by
    rw [hreach.get? hr, ← Lists.contains_map hr ((reach.get? a).getD [])]
    cases reach.get? a <;> rfl
  rw [Graph.entangled, Graph.entangled, hcontains, hcontains]

theorem component (hreach : reach.Renamed r (List.map r) reach') (m : String) :
    g'.component reach' (r m) = (g.component reach m).map r := by
  have hsame (a : String) : (r a == r m) = (a == m) := by
    rw [Bool.eq_iff_iff, beq_iff_eq, beq_iff_eq, hr.eq_iff]
  rw [Graph.component, h.modules, List.filter_map, Graph.component]
  simp only [Function.comp_def, hsame, entangled hr hreach]

theorem components : g'.components = g.components.map (List.map r) := by
  have hparts : (g.modules.map r).map (g'.component g'.dependsOn) =
      (g.modules.map (g.component g.dependsOn)).map (List.map r) := by
    rw [List.map_map, List.map_map]
    exact List.map_congr_left fun m _ => h.component hr (h.dependsOn hr) m
  rw [Graph.components, h.modules, hparts, Lists.eraseDups_map _ fun _ _ _ _ hab => hr.list_map hab, Graph.components]

theorem circular (part : List String) : g'.circular (part.map r) = g.circular part := by
  rw [Graph.circular, List.length_map, Graph.circular, List.head?_map]
  cases part.head? with
  | none => rfl
  | some m => simp only [Option.map_some, Option.any_some, h.hasEdge hr]

theorem starts (parts : List (List String)) :
    g'.starts (parts.map (List.map r)) = (g.starts parts).map (Prod.map id (List.map r)) := by
  have hcircular : (parts.map (List.map r)).filter g'.circular = (parts.filter g.circular).map (List.map r) := by
    rw [List.filter_map]
    simp only [Function.comp_def, h.circular hr]
  have hplaces (part : List String) : (part.map r).filterMap g'.slot? = part.filterMap g.slot? := by
    rw [List.filterMap_map]
    simp only [Function.comp_def, h.slot? hr]
  -- The places stay as they are, and the order looks at nothing else.
  have hsort (l : List (Nat × List String)) : (l.mergeSort fun s t => s.1 ≤ t.1).map (Prod.map id (List.map r)) =
      (l.map (Prod.map id (List.map r))).mergeSort fun s t => s.1 ≤ t.1 := List.map_mergeSort fun _ _ _ _ => rfl
  rw [Graph.starts, Graph.starts, hcircular, List.filterMap_map, hsort, List.map_filterMap]
  refine congrArg (List.mergeSort · _) (List.filterMap_congr fun part _ => ?_)
  rw [Function.comp_apply, hplaces, Option.map_map]
  rfl

/-- The same cycles, in the same order, each from the same module on. -/
theorem cycles : g'.cycles = g.cycles.map (List.map r) := by
  rw [Graph.cycles, h.components hr, cyclesAmong, h.starts hr, Graph.cycles, cyclesAmong, List.filterMap_map,
    List.map_filterMap]
  refine List.filterMap_congr fun s _ => ?_
  simp only [Function.comp_apply, Prod.map_fst, Prod.map_snd, id_eq, h.modules, List.getElem?_map]
  cases g.modules[s.1]? with
  | none => rfl
  | some m => exact Reach.shortestCycle?_map hr (h.successors hr) m s.2

end Graph.Renamed
end ModuleAudit
