import EpochDB.Lib.Bytes
import EpochDB.Lib.SortedMap

/-!
The latest state (`latest/view.go`): overlays of writes over runs. An empty value is a tombstone, it
shadows what is below and a merge drops the key.
-/

namespace EpochDB.Latest

abbrev Overlay := SortedMap Bytes Bytes

abbrev Run := SortedMap Bytes Bytes

def entryOverhead : Nat := 64

def Overlay.bytes (o : Overlay) : Nat :=
  (o.rows.map (fun r => r.1.length + r.2.length + entryOverhead)).sum

def inBounds (lo hi : Option Bytes) (key : Bytes) : Bool :=
  lo.all (fun lo => lo ≤ key) && hi.all (fun hi => key < hi)

structure View where
  overlays : List Overlay
  runs : List Run

namespace View

def live (val : Option Bytes) : Option Bytes := val.filter (fun v => !v.isEmpty)

def get (v : View) (key : Bytes) : Option Bytes :=
  match v.overlays.findSome? (·.get key) with
  | some val => live (some val)
  | none => live (v.runs.findSome? (·.get key))

def levels (v : View) (lo hi : Option Bytes) : List (SortedMap Bytes Bytes) :=
  (v.overlays ++ v.runs).map (fun l => l.restrict (fun k _ => inBounds lo hi k))

def iter (v : View) (lo hi : Option Bytes) : SortedMap Bytes Bytes :=
  (SortedMap.mergeAll (v.levels lo hi)).restrict (fun _ val => !val.isEmpty)

def merge (v : View) : Run := v.iter none none

theorem get_eq (v : View) (key : Bytes) : v.get key = live ((v.overlays ++ v.runs).findSome? (·.get key)) := by
  unfold get
  rw [List.findSome?_append]
  cases v.overlays.findSome? (·.get key) <;> rfl

theorem get_iter (v : View) (lo hi : Option Bytes) (key : Bytes)
    : (v.iter lo hi).get key = if inBounds lo hi key then v.get key else none := by
  unfold iter
  rw [SortedMap.get_restrict, SortedMap.get_mergeAll, levels, List.findSome?_map]
  have hlevel : (fun l : SortedMap Bytes Bytes => (l.restrict (fun k _ => inBounds lo hi k)).get key) =
      fun l => if inBounds lo hi key then l.get key else none := by
    funext l
    rw [SortedMap.get_restrict]
    cases h : inBounds lo hi key <;> cases l.get key <;> simp
  rw [Function.comp_def, hlevel]
  split
  . rw [get_eq]
    rfl
  . rw [List.findSome?_eq_none_iff.mpr (by simp)]
    rfl

theorem get_merge (v : View) (key : Bytes) : v.merge.get key = v.get key := by
  rw [merge, get_iter]
  rfl

theorem ne_nil_of_get {v : View} {key val : Bytes} (h : v.get key = some val) : val ≠ [] := by
  rw [get_eq, live, Option.filter_eq_some_iff] at h
  simpa using h.2

theorem live_eq_self {val : Option Bytes} (h : ∀ v, val = some v → v ≠ []) : live val = val := by
  cases val with
  | none => rfl
  | some v => simp [live, h v rfl]

theorem get_put (o : Overlay) (overlays : List Overlay) (runs : List Run) (key val key' : Bytes)
    : (View.mk (o.put key val :: overlays) runs).get key' =
        if key' = key then live (some val) else (View.mk (o :: overlays) runs).get key' := by
  rw [get_eq, get_eq, List.cons_append, List.cons_append, List.findSome?_cons, List.findSome?_cons, SortedMap.get_put]
  by_cases h : key' = key
  . simp [h]
  . simp [h]

end View

end EpochDB.Latest
