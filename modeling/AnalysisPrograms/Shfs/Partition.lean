import AnalysisPrograms.Shfs.Worker

namespace AnalysisPrograms.Shfs

open Foundations FiniteMap Links

namespace Layout

variable (L : Layout)

theorem freeClients_ne_inuseClients : L.freeClients ≠ L.inuseClients := by
  unfold freeClients inuseClients
  omega

theorem node_bounds {n : ℕ} (hn : n ∈ L.nodes) :
    L.cache + offsetOfNode ≤ n ∧ n + 8 ≤ L.cache + sizeofClient * L.clientNo := by
  obtain ⟨i, hi, rfl⟩ := List.mem_map.mp hn
  have hlt := List.mem_range.mp hi
  simp only [client, sizeofClient, offsetOfNode]
  omega

theorem freeClients_notMem : L.freeClients ∉ L.nodes := by
  intro hn
  have hb := L.node_bounds hn
  have hc := L.cache_context
  simp only [freeClients, offsetOfNode] at hb
  omega

theorem inuseClients_notMem : L.inuseClients ∉ L.nodes := by
  intro hn
  have hb := L.node_bounds hn
  have hc := L.cache_context
  simp only [inuseClients, offsetOfNode] at hb
  omega

theorem pFreeClients_notMem : L.pFreeClients ∉ L.nodes := by
  intro hn
  have hb := L.node_bounds hn
  have hc := L.cache_local
  simp only [offsetOfNode] at hb
  omega

theorem node_ne_zero {n : ℕ} (hn : n ∈ L.nodes) : n ≠ 0 := by
  have hb := L.node_bounds hn
  simp only [offsetOfNode] at hb
  omega

theorem nodes_nodup : L.nodes.Nodup := by
  apply List.Nodup.map _ List.nodup_range
  intro i j h
  simp only [client, sizeofClient] at h
  omega

theorem length_nodes : L.nodes.length = L.clientNo := by simp [nodes]

theorem node_containerOf {n : ℕ} (hn : n ∈ L.nodes) : containerOf n + offsetOfNode = n := by
  have hb := L.node_bounds hn
  unfold containerOf
  omega

end Layout

structure Partitioned (L : Layout) (words : Words) (free inuse : List ℕ) : Prop where
  freeList : Listed words 0 L.freeClients free
  inuseList : Listed words 0 L.inuseClients inuse
  nodes : (free ++ inuse).Perm L.nodes

namespace Partitioned

variable {L : Layout} {words : Words} {free inuse before after : List ℕ} {n : ℕ}

theorem mem_nodes (h : Partitioned L words free inuse) : n ∈ L.nodes ↔ n ∈ free ∨ n ∈ inuse := by
  rw [← h.nodes.mem_iff, List.mem_append]

theorem disjoint (h : Partitioned L words free inuse) : ∀ n ∈ free, n ∉ inuse := by
  have hnd := h.nodes.nodup_iff.mpr L.nodes_nodup
  intro n hf hi
  exact (List.nodup_append.mp hnd).2.2 n hf n hi rfl

theorem length_le (h : Partitioned L words free inuse) :
    free.length ≤ L.clientNo ∧ inuse.length ≤ L.clientNo := by
  have hlen := h.nodes.length_eq
  rw [L.length_nodes, List.length_append] at hlen
  omega

theorem inuseNodes_eq {w : Worker} (h : Partitioned L w.words free inuse) :
    inuseNodes L w = inuse :=
  h.inuseList.1.collect_eq h.length_le.2

theorem not_head (h : Partitioned L words free inuse) :
    L.freeClients ∉ inuse ∧ L.inuseClients ∉ free :=
  ⟨fun hc => L.freeClients_notMem (h.mem_nodes.mpr (.inr hc)),
    fun hc => L.inuseClients_notMem (h.mem_nodes.mpr (.inl hc))⟩

theorem connect (h : Partitioned L words (n :: free) inuse) :
    ∃ mem mem', rmNode (L.clientNo + 1) words L.freeClients n = some mem ∧
      addNode mem L.inuseClients n = some mem' ∧ Partitioned L mem' free (n :: inuse) := by
  have hl : Listed words 0 L.freeClients ([] ++ n :: free) := h.freeList
  obtain ⟨mem, mem', hrm, hadd, hfree, hinuse⟩ := moveNode (by simp [Layout.freeClients])
    (by simp [Layout.inuseClients]) hl h.inuseList L.freeClients_ne_inuseClients h.not_head.2
    h.not_head.1 h.disjoint (Nat.succ_pos L.clientNo)
  exact ⟨mem, mem', hrm, hadd, hfree, hinuse, List.perm_middle.trans h.nodes⟩

theorem disconnect (h : Partitioned L words free (before ++ n :: after)) :
    ∃ mem mem', rmNode (L.clientNo + 1) words L.inuseClients n = some mem ∧
      addNode mem L.freeClients n = some mem' ∧
      Partitioned L mem' (n :: free) (before ++ after) := by
  have hlen := h.length_le.2
  rw [List.length_append, List.length_cons] at hlen
  obtain ⟨mem, mem', hrm, hadd, hinuse, hfree⟩ := moveNode (by simp [Layout.inuseClients])
    (by simp [Layout.freeClients]) h.inuseList h.freeList L.freeClients_ne_inuseClients.symm
      h.not_head.1
    h.not_head.2 (fun x hx hf => h.disjoint x hf hx) (show before.length < L.clientNo + 1 by omega)
  refine ⟨mem, mem', hrm, hadd, hfree, hinuse, List.Perm.trans ?_ h.nodes⟩
  rw [List.cons_append, ← List.append_assoc, ← List.append_assoc]
  exact List.perm_middle.symm

end Partitioned

theorem buildLoop_spec (L : Layout) {words : Words} (h0 : words L.pFreeClients = 0) {n : ℕ}
    (hn : n ≤ L.clientNo) :
    ∃ mem, buildLoop L n words = some mem ∧
      Listed mem 0 L.pFreeClients
      ((List.range n).map fun i => L.client i + offsetOfNode).reverse := by
  induction n with
  | zero => exact ⟨words, rfl, h0, by simp⟩
  | succ n ih =>
    obtain ⟨mem, hrun, hl⟩ := ih (by omega)
    have hmem : L.client n + offsetOfNode ∈ L.nodes :=
      List.mem_map.mpr ⟨n, List.mem_range.mpr hn, rfl⟩
    have hne : L.client n + offsetOfNode ≠ L.pFreeClients :=
      fun he => L.pFreeClients_notMem (he ▸ hmem)
    have hnew : L.client n + offsetOfNode ∉
        ((List.range n).map fun i => L.client i + offsetOfNode).reverse := by
      intro hc
      obtain ⟨i, hi, he⟩ := List.mem_map.mp (List.mem_reverse.mp hc)
      have hlt := List.mem_range.mp hi
      simp only [Layout.client, sizeofClient] at he
      omega
    have hadd := addNode_eq (m := mem) L.local_pos.ne' (L.node_ne_zero hmem)
    have hstep : buildLoop L (n + 1) words = addNode mem L.pFreeClients
        (L.client n + offsetOfNode) := by
      simp only [buildLoop, hrun, Option.bind_eq_bind, Option.bind_some]
    refine ⟨_, hstep.trans hadd, ?_⟩
    rw [List.range_succ, List.map_append, List.map_singleton, List.reverse_append,
      List.reverse_singleton, List.singleton_append]
    exact hl.push (L.node_ne_zero hmem) hne hnew

theorem buildContext_spec (L : Layout) (words : Words) (kernel : Kernel) :
    ∃ w, buildContext L words kernel = some w ∧ w.kernel = kernel ∧
      Partitioned L w.words L.nodes.reverse [] := by
  have h0 : Function.update words L.pFreeClients 0 L.pFreeClients = 0 := Function.update_self _ _ _
  obtain ⟨mem, hrun, hw, -⟩ := buildLoop_spec L h0 (le_refl L.clientNo)
  generalize hm : Function.update (Function.update mem L.freeClients (mem L.pFreeClients))
    L.inuseClients 0 = m
  have hpart : Partitioned L m L.nodes.reverse [] := by
    subst hm
    refine ⟨⟨?_, fun hc => L.freeClients_notMem (List.mem_reverse.mp hc)⟩,
      ⟨by simp [Walk], by simp⟩, ?_⟩
    · rw [Function.update_of_ne L.freeClients_ne_inuseClients, Function.update_self]
      apply hw.congr
      intro x hx
      have hx' : x ∈ L.nodes := List.mem_reverse.mp hx
      have hxi : x ≠ L.inuseClients := fun he => L.inuseClients_notMem (he ▸ hx')
      have hxf : x ≠ L.freeClients := fun he => L.freeClients_notMem (he ▸ hx')
      rw [Function.update_of_ne hxi, Function.update_of_ne hxf]
    · rw [List.append_nil]
      exact List.reverse_perm L.nodes
  refine ⟨⟨m, fun _ => Client.zero, kernel⟩, ?_, rfl, hpart⟩
  simp only [buildContext, hrun, Option.bind_eq_bind, Option.bind_some, hm]

end AnalysisPrograms.Shfs
