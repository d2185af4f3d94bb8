import Codegen6502.Proofs.Calls.LowLinks
import Codegen6502.Proofs.Calls.Pipeline

/-!
# The partition into components

A graph that is built up node by node and call by call has all its callees as nodes
(`Built.complete`), so that its components divide its nodes up into the classes of mutual
reachability, each in order and behind the classes it calls (`components_partition`).
-/

namespace Codegen6502.Proofs.Calls.Partition

open CallGraph Relation Search Components LowLinks

/-- The graphs that come from adding nodes and calls. -/
inductive Built : CallGraph → Prop
  | empty : Built {}
  | addNode {g : CallGraph} (h : Built g) (n : String) : Built (g.addNode n)
  | addEdge {g : CallGraph} (h : Built g) (a b : String) : Built (g.addEdge a b)

variable {g : CallGraph}

theorem Built.complete (h : Built g) : Complete g := by
  induction h with
  | empty =>
    intro a b hab
    simp [Edge, callees] at hab
  | addNode _ n ih =>
    intro a b hab
    exact Pipeline.mem_nodes_addNode.mpr (Or.inr (ih a b (Pipeline.edge_addNode.mp hab)))
  | addEdge _ u v ih =>
    intro a b hab
    rcases Pipeline.edge_addEdge.mp hab with hab | ⟨-, rfl⟩
    · exact Pipeline.mem_nodes_addEdge.mpr (Or.inr (Or.inr (ih a b hab)))
    · exact Pipeline.mem_nodes_addEdge.mpr (Or.inr (Or.inl rfl))

theorem nodup_nodes (g : CallGraph) : g.nodes.Nodup := Std.TreeMap.nodup_keys

/-! ### Single components -/

/-- Each class has a node, and its nodes are in order. -/
theorem classes_ordered (together : String → String → Bool) (order : List String)
    (h : order.Nodup) : ∀ c ∈ classes together order, c ≠ [] ∧ c.Pairwise (· < ·) := by
  induction order using classes_induction together with
  | nil => simp [classes]
  | cons n rest ih =>
    obtain ⟨hn, hrest⟩ := List.nodup_cons.mp h
    intro c hc
    rw [classes_cons] at hc
    rcases List.mem_append.mp hc with hc | hc
    · exact ih (hrest.filter _) c hc
    · have hclass : (n :: rest.filter fun m => together n m).Nodup :=
        List.nodup_cons.mpr ⟨fun hmem => hn (List.mem_of_mem_filter hmem), hrest.filter _⟩
      rw [List.mem_singleton.mp hc]
      refine ⟨fun hnil => ?_, ?_⟩
      · have hmem : n ∈ sortedNames (n :: rest.filter fun m => together n m) :=
          mem_sortedNames.mpr (List.mem_cons_self ..)
        simp [hnil] at hmem
      · have hle := ordered_mergeSort (n :: rest.filter fun m => together n m)
        have hne := nodup_sortedNames hclass
        rw [sortedNames_of_nodup hclass] at hne ⊢
        refine (hle.and hne).imp fun {a b} hab => ?_
        by_contra hlt
        exact hab.2 (String.le_antisymm hab.1 (String.not_lt.mp hlt))

theorem components_ordered (hg : Complete g) :
    ∀ c ∈ g.components, c ≠ [] ∧ c.Pairwise (· < ·) := by
  obtain ⟨together, heq, -⟩ := components_eq hg
  rw [heq]
  exact classes_ordered together g.finishOrder (nodup_finishOrder hg)

/-- Two nodes that reach each other are in the same component. -/
theorem exists_component (hg : Complete g) {a b : String} (ha : a ∈ g.nodes) (h : Mutual g a b) :
    ∃ c ∈ g.components, a ∈ c ∧ b ∈ c := by
  obtain ⟨c, hc, hac⟩ := List.mem_flatten.mp ((mem_components hg a).mpr ha)
  obtain ⟨front, back, hsplit⟩ := List.append_of_mem hc
  refine ⟨c, hc, hac, ?_⟩
  by_contra hbc
  -- A component in front of the one with `a` would have `a` too.
  have hb : b ∈ front.flatten :=
    (components_callees_first hg hsplit hac h.1).resolve_left hbc
  obtain ⟨d, hd, hbd⟩ := List.mem_flatten.mp hb
  obtain ⟨front', back', hsplit'⟩ := List.append_of_mem hd
  have hsplit'' : g.components = front' ++ d :: (back' ++ c :: back) := by
    rw [hsplit, hsplit']
    simp
  have ha' : a ∈ d ∨ a ∈ front'.flatten := components_callees_first hg hsplit'' hbd h.2
  have hnodup := nodup_components hg
  rw [hsplit'', List.flatten_append, List.flatten_cons, List.flatten_append, List.flatten_cons]
    at hnodup
  obtain ⟨-, hrest, hapart⟩ := List.nodup_append.mp hnodup
  rcases ha' with ha' | ha'
  · exact (List.nodup_append.mp hrest).2.2 a ha' a (by simp [hac]) rfl
  · exact hapart a ha' a (by simp [hac]) rfl

/-! ### The partition -/

/-- **The strongly connected components, callees first.**  The lists that the pass by low links
completes are the components.  They divide the nodes up, each with some nodes in order; two nodes
are in the same list exactly if they reach each other, and a callee outside the list of its caller
is in an earlier one. -/
theorem components_partition (hg : Built g) :
    (∀ depth, g.nodes.length ≤ depth → lowLinkComponents g depth = g.components) ∧
    g.components.flatten.Perm g.nodes ∧
    (∀ c ∈ g.components, c ≠ [] ∧ c.Pairwise (· < ·)) ∧
    (∀ a ∈ g.nodes, ∀ b ∈ g.nodes, (∃ c ∈ g.components, a ∈ c ∧ b ∈ c) ↔ Mutual g a b) ∧
    ∀ front c back, g.components = front ++ c :: back → ∀ a ∈ c, ∀ b, Edge g a b → b ∉ c →
      ∃ d ∈ front, b ∈ d := by
  have hcomplete := hg.complete
  refine ⟨fun depth hdepth => lowLinkComponents_eq hcomplete hdepth, ?_,
    components_ordered hcomplete, fun a ha b _ => ⟨?_, exists_component hcomplete ha⟩, ?_⟩
  · exact (List.perm_ext_iff_of_nodup (nodup_components hcomplete) (nodup_nodes g)).mpr
      (mem_components hcomplete)
  · rintro ⟨c, hc, hac, hbc⟩
    exact mutual_of_mem hcomplete hc hac hbc
  · intro front c back hsplit a ha b hcall hb
    have hmem := components_callees_first hcomplete hsplit ha (ReflTransGen.single hcall)
    exact List.mem_flatten.mp (hmem.resolve_left hb)

/-- Two functions that call each other, one of which calls a third. -/
def ring : CallGraph :=
  ((({} : CallGraph).addEdge "f" "g").addEdge "g" "f").addEdge "g" "h"

/-- The two are in one component, and the third is in an earlier one. -/
theorem partition_of_ring : Built ring ∧ ∃ front c back, ring.components = front ++ c :: back ∧
    "f" ∈ c ∧ "g" ∈ c ∧ "h" ∉ c ∧ ∃ d ∈ front, "h" ∈ d := by
  have hbuilt : Built ring := ((Built.empty.addEdge "f" "g").addEdge "g" "f").addEdge "g" "h"
  obtain ⟨-, -, -, hmutual, hearlier⟩ := components_partition hbuilt
  have hnodes : ring.nodes = ["f", "g", "h"] := by decide +kernel
  have hnone : ∀ b, ¬ Edge ring "h" b := by simp [Edge, show ring.callees "h" = [] by decide +kernel]
  have hfg : Mutual ring "f" "g" :=
    ⟨.single (by simp [ring, Pipeline.edge_addEdge]), .single (by simp [ring, Pipeline.edge_addEdge])⟩
  have hgh : ¬ Mutual ring "g" "h" := by
    intro h
    rcases h.2.cases_head with heq | ⟨b, hcall, -⟩
    · simp at heq
    · exact hnone b hcall
  obtain ⟨c, hc, hf, hg⟩ := (hmutual "f" (by simp [hnodes]) "g" (by simp [hnodes])).mpr hfg
  have hh : "h" ∉ c := fun hmem =>
    hgh ((hmutual "g" (by simp [hnodes]) "h" (by simp [hnodes])).mp ⟨c, hc, hg, hmem⟩)
  obtain ⟨front, back, hsplit⟩ := List.append_of_mem hc
  have hcall : Edge ring "g" "h" := by simp [ring, Pipeline.edge_addEdge]
  exact ⟨hbuilt, front, c, back, hsplit, hf, hg, hh, hearlier front c back hsplit "g" hg "h" hcall hh⟩

end Codegen6502.Proofs.Calls.Partition
