import AnalysisPrograms.Foundations.Links

namespace AnalysisPrograms.Shfs

open Foundations Links

abbrev Words := ℕ → ℕ

def addNode (mem : Words) (ppList pNode : ℕ) : Option Words := do
  guard (ppList ≠ 0)
  guard (pNode ≠ 0)
  let tmp := mem ppList
  let mem := Function.update mem pNode tmp
  some (Function.update mem ppList pNode)

def rmLoop (pNode : ℕ) : ℕ → Words → ℕ → Option Words
  | 0, _, _ => none
  | limit + 1, mem, ppCurr =>
    if mem ppCurr = 0 then some mem
    else if pNode = mem ppCurr then
      let mem := Function.update mem ppCurr (mem pNode)
      some (Function.update mem pNode 0)
    else rmLoop pNode limit mem (mem ppCurr)

def rmNode (limit : ℕ) (mem : Words) (ppList pNode : ℕ) : Option Words := do
  guard (ppList ≠ 0)
  guard (pNode ≠ 0)
  rmLoop pNode limit mem ppList

theorem addNode_eq {m : Words} {h n : ℕ} (hh : h ≠ 0) (hn : n ≠ 0) :
    addNode m h n = some (Function.update (Function.update m n (m h)) h n) := by
  simp [addNode, hh, hn, guard]

theorem rmLoop_eq {mem : Words} {h n limit : ℕ} {before after : List ℕ}
    (hl : Listed mem 0 h (before ++ n :: after)) (hlim : before.length < limit) :
    rmLoop n limit mem h =
      some (Function.update (Function.update mem (pointerTo h before) (mem n)) n 0) := by
  induction before generalizing h limit with
  | nil =>
    obtain ⟨limit, rfl⟩ : ∃ k, limit = k + 1 := ⟨limit - 1, by omega⟩
    obtain ⟨⟨hhn, hn, -⟩, -⟩ := hl
    simp [rmLoop, hhn, hn, pointerTo]
  | cons x before ih =>
    obtain ⟨limit, rfl⟩ : ∃ k, limit = k + 1 := ⟨limit - 1, by omega⟩
    obtain ⟨hw, -⟩ := hl
    have hnd := hw.nodup
    obtain ⟨hhx, hx, hw⟩ := hw
    obtain ⟨hxs, -⟩ := List.nodup_cons.mp hnd
    have hnx : n ≠ x := fun he => hxs (he ▸ by simp)
    rw [pointerTo_cons, ← ih ⟨hw, hxs⟩ (by simpa using hlim)]
    simp [rmLoop, hhx, hx, hnx]

theorem rmNode_eq {mem : Words} {h n limit : ℕ} {before after : List ℕ} (hh : h ≠ 0)
    (hl : Listed mem 0 h (before ++ n :: after)) (hlim : before.length < limit) :
    rmNode limit mem h n =
      some (Function.update (Function.update mem (pointerTo h before) (mem n)) n 0) := by
  have hn : n ≠ 0 := hl.1.ne_null (by simp)
  rw [← rmLoop_eq hl hlim]
  simp [rmNode, hh, hn, guard]

theorem moveNode {mem : Words} {h h' n limit : ℕ} {before after ys : List ℕ} (hh : h ≠ 0)
    (hh' : h' ≠ 0) (hl : Listed mem 0 h (before ++ n :: after)) (hl' : Listed mem 0 h' ys)
    (hne : h ≠ h') (hout : h' ∉ before ++ n :: after) (hout' : h ∉ ys)
    (hdis : ∀ x ∈ before ++ n :: after, x ∉ ys) (hlim : before.length < limit) :
    ∃ mem₁ mem₂, rmNode limit mem h n = some mem₁ ∧ addNode mem₁ h' n = some mem₂ ∧
      Listed mem₂ 0 h (before ++ after) ∧ Listed mem₂ 0 h' (n :: ys) := by
  have hn : n ≠ 0 := hl.1.ne_null (by simp)
  have hnh : n ≠ h := fun he => hl.2 (he ▸ by simp)
  have hnh' : n ≠ h' := fun he => hout (he ▸ by simp)
  have hny : n ∉ ys := hdis n (by simp)
  have hnx : n ∉ before ++ after := by
    intro hc
    have hnd := hl.1.nodup
    rw [List.nodup_middle] at hnd
    exact (List.nodup_cons.mp hnd).1 hc
  have hsub : ∀ x ∈ before ++ after, x ∈ before ++ n :: after := by
    intro x hx
    rcases List.mem_append.mp hx with hx | hx
    · exact List.mem_append_left _ hx
    · exact List.mem_append_right _ (List.mem_cons_of_mem n hx)
  have hp : ∀ x ∈ h' :: ys, x ≠ pointerTo h before := by
    rintro x hx rfl
    rcases List.mem_cons.mp (pointerTo_mem h before) with hph | hpb
    · rw [hph] at hx
      rcases List.mem_cons.mp hx with he | hx
      · exact hne he
      · exact hout' hx
    · rcases List.mem_cons.mp hx with he | hx
      · exact hout (he ▸ List.mem_append_left _ hpb)
      · exact hdis _ (List.mem_append_left _ hpb) hx
  have hrest := hl.unlink
  have hother : Listed (Function.update (Function.update mem (pointerTo h before) (mem n)) n 0)
      0 h' ys := by
    apply hl'.congr
    intro x hx
    have hxn : x ≠ n := by
      rintro rfl
      rcases List.mem_cons.mp hx with he | hx
      · exact hnh' he
      · exact hny hx
    rw [Function.update_of_ne hxn, Function.update_of_ne (hp x hx)]
  refine ⟨_, _, rmNode_eq hh hl hlim, addNode_eq hh' hn, ?_, hother.push hn hnh' hny⟩
  apply hrest.congr
  intro x hx
  have hxh' : x ≠ h' := by
    rintro rfl
    rcases List.mem_cons.mp hx with he | hx
    · exact hne he.symm
    · exact hout (hsub x hx)
  have hxn : x ≠ n := by
    rintro rfl
    rcases List.mem_cons.mp hx with he | hx
    · exact hnh he
    · exact hnx hx
  rw [Function.update_of_ne hxh', Function.update_of_ne hxn]

end AnalysisPrograms.Shfs
