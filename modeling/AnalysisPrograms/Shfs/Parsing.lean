import AnalysisPrograms.Shfs.Request

namespace AnalysisPrograms.Shfs

open Foundations Bytes

def requestItem (data : ℕ → UInt8) (capacity : ℕ) : Option (List UInt8) :=
  (parseFile data capacity).join.map fun (item, itemLen) => slice data item itemLen

theorem parseRange_eq (srv : Server) (data : ℕ → UInt8) (lineLen capacity : ℕ) :
    parseRange srv data lineLen capacity =
      (findStringKmp data lineLen srv.upperRange.view 5).bind fun upper =>
        (if upper = -1 then findStringKmp data lineLen srv.lowerRange.view 5
          else some upper).bind fun rangeB =>
          if rangeB ≥ 0 then parseOffset srv data lineLen capacity else some (some 0) := by
  unfold parseRange
  rw [Option.bind_eq_bind]
  apply Option.bind_congr
  intro upper _
  by_cases h : upper = -1
  · rw [if_pos h, if_pos h]
  · rw [if_neg h, if_neg h]

theorem parseFile_found {data : ℕ → UInt8} {capacity item itemLen : ℕ}
    (h : parseFile data capacity = some (some (item, itemLen))) :
    itemStart data capacity = some item ∧ data item = SLASH ∧
      (∃ stop, scan (fun b => b = CR || b = SPACE) data (capacity - item) item = some stop ∧
        itemLen = stop - item) ∧ 1 ≤ itemLen ∧ itemLen ≤ 128 := by
  obtain ⟨start, hstart, h⟩ := Option.bind_eq_some_iff.mp h
  by_cases hitem : data start = SLASH
  swap
  · rw [if_pos hitem] at h
    cases h
  rw [if_neg (not_not.mpr hitem)] at h
  obtain ⟨stop, hstop, h⟩ := Option.bind_eq_some_iff.mp h
  split_ifs at h with hlen
  · cases h
  obtain ⟨rfl, rfl⟩ := Prod.mk.inj (Option.some.inj (Option.some.inj h))
  simp only [Bool.or_eq_true, decide_eq_true_eq, not_or] at hlen
  exact ⟨hstart, hitem, ⟨stop, hstop, rfl⟩, by omega, by omega⟩

theorem parseRequ_spec {srv : Server} {clt clt' : Client} {found : Option (List UInt8)}
    (h : parseRequ srv clt = some (clt', found)) :
    (∃ requ, clt' = { clt with mRequ := requ }) ∧
      ∀ item, found = some item → (∃ rest, item = SLASH :: rest) ∧
        ∃ data, clt.mRecvBuf.mpData = some data ∧
        requestItem data clt.mRecvBuf.mCapacity.toNat = some item := by
  obtain ⟨data, hdata, h⟩ := Option.bind_eq_some_iff.mp h
  obtain ⟨method, -, h⟩ := Option.bind_eq_some_iff.mp h
  rcases method with _ | ⟨lineLen, requ⟩
  · cases h
    exact ⟨⟨clt.mRequ, rfl⟩, nofun⟩
  obtain ⟨file, hfile, h⟩ := Option.bind_eq_some_iff.mp h
  rcases file with _ | ⟨start, itemLen⟩
  · cases h
    exact ⟨⟨requ, rfl⟩, nofun⟩
  obtain ⟨range, -, h⟩ := Option.bind_eq_some_iff.mp h
  rcases range with _ | rangeB
  · cases h
    exact ⟨⟨_, rfl⟩, nofun⟩
  · cases h
    refine ⟨⟨_, rfl⟩, ?_⟩
    rintro item ⟨⟩
    obtain ⟨-, hslash, -, hpos, -⟩ := parseFile_found hfile
    refine ⟨?_, data, hdata, ?_⟩
    · obtain ⟨len, rfl⟩ := Nat.exists_eq_add_of_le' hpos
      rw [slice_succ, hslash]
      exact ⟨_, rfl⟩
    · rw [requestItem, hfile]
      rfl

end AnalysisPrograms.Shfs
