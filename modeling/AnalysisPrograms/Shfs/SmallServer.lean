import Mathlib.Order.Lattice.Nat
import AnalysisPrograms.Shfs.Worker

namespace AnalysisPrograms.Shfs

open Foundations FiniteMap Bytes

def nextFd : Os where
  unusedFd _ fds := (fds.keys.sup Int.natAbs : ℕ) + 1
  unused calls fds := by
    refine ⟨fun hmem => ?_, by omega⟩
    have hle := Finset.le_sup (f := Int.natAbs) (Finmap.mem_keys.mpr hmem)
    omega

def Literal.alone (s : String) : Literal s where
  view z := if z < 0 then 0 else blit (fun _ => 0) 0 (text s) z.toNat
  bytes := by
    refine Eq.trans (slice_congr fun k _ => ?_) (slice_blit_self (fun _ => 0) 0 (text s))
    rw [if_neg (by omega), Int.toNat_natCast]
  terminated := by
    rw [if_neg (by omega), Int.toNat_natCast]
    exact blit_above _ _ (by omega)

def oneFile (contents : Contents) : Server where
  pathRoot := text "/srv"
  fs :=
    { realpath := some
      statIsDir := fun _ => some false
      contents := fun _ => some contents }
  upperRange := Literal.alone "RANGE"
  lowerRange := Literal.alone "Range"
  bytes := Literal.alone "bytes"

def hello : Contents := ⟨text "hello", by decide⟩

def oneClient : Layout where
  context := 1000
  pFreeClients := 2000
  cache := 4000
  clientNo := 1
  context_pos := Nat.succ_pos _
  local_pos := Nat.succ_pos _
  context_local := by decide
  cache_context := by decide
  cache_local := by decide

def accepts : ConnectAnswers := ⟨true, true, some 4096, some 4096, some fun _ => 0, some fun _ => 0⟩

def delivers (s : String) : ReadAnswers := ⟨text s, [], false, [], true⟩

end AnalysisPrograms.Shfs
