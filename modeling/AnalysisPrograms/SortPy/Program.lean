import Mathlib.Data.Int.Basic
import Mathlib.Order.Lattice
import AnalysisPrograms.Foundations.Execution
import AnalysisPrograms.Foundations.Indices

namespace AnalysisPrograms.SortPy

open Foundations.Execution Foundations.Indices Foundations.Segments

variable {α : Type}

def swap (data : List α) (a b : ℤ) : Option (List α) := do
  let i ← position data a
  let j ← position data b
  let x ← data[j]?
  let y ← data[i]?
  return (data.set i x).set j y

section Programs

variable [LinearOrder α]

def compareSwap (i : ℤ) (data : List α) (j : ℤ) : Option (List α) := do
  if (← item data i) > (← item data j) then swap data i j else return data

def bubbleSort (data : List α) (start last : ℤ) : Option (List α) :=
  let last := if last < 0 then last + data.length else last
  let last := if last > data.length then (data.length : ℤ) else last
  if last ≤ start then some data
  else exec (fun data i => exec (compareSwap i) data (upTo (i + 1) (last + 1))) data
    (upTo start last)

def mid (data : List α) (a b c : ℤ) : Option ℤ := do
  if (← item data a) > (← item data b) then
    if (← item data a) < (← item data c) then return a
    else if (← item data b) > (← item data c) then return b
    else return c
  else
    if (← item data b) < (← item data c) then return b
    else if (← item data a) > (← item data c) then return a
    else return c

def splitLoop (pivot : ℤ) : ℕ → List α → ℤ → ℤ → Option (List α × ℤ)
  | 0, _, _, _ => none
  | fuel + 1, data, i, j => do
    let (data, i) ←
      if (← item data i) > (← item data pivot) then (swap data i j).map fun data => (data, i)
        else some (data, i + 1)
    if i > j then return (data, i)
    let (data, j) ←
      if (← item data j) < (← item data pivot) then (swap data j i).map fun data => (data, j)
        else some (data, j - 1)
    if i > j then return (data, i)
    splitLoop pivot fuel data i j

/-- The bound is on the depth of the calls, and on the turns of the loop in each of them. -/
def quickSort : ℕ → List α → ℤ → ℤ → Option (List α)
  | 0, _, _, _ => none
  | fuel + 1, data, start, last =>
    if last - start + 1 < 3 then bubbleSort data start last
    else
      let last := if last < 0 then last + data.length else last
      let last := if last > data.length then (data.length : ℤ) else last
      if last ≤ start then some data
      else do
        let pivot ← mid data start (start + (last - start) / 2) last
        let data ← swap data pivot last
        let pivot := last
        let (data, i) ← splitLoop pivot (fuel + 1) data start (last - 1)
        let data ← swap data i pivot
        let pivot := i
        let data ← quickSort fuel data start (pivot - 1)
        quickSort fuel data (pivot + 1) last

def doSort (fuel : ℕ) (data : List α) (start last : ℤ) : Option (List α) :=
  quickSort fuel data start last

end Programs

section Positions

variable {data : List α} {a b : ℕ}

theorem swap_eq (ha : a < data.length) (hb : b < data.length) :
    swap data a b = some (exchange data a b) := by
  obtain ⟨x, hx⟩ := exists_get ha
  obtain ⟨y, hy⟩ := exists_get hb
  simp only [swap, position_eq ha, position_eq hb, hx, hy, exchange, Option.bind_eq_bind,
    Option.bind_some]
  rfl

end Positions

end AnalysisPrograms.SortPy
