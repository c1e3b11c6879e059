import Statechart.Element

/-!
# Instances

An instance remembers, for every region it has entered, the vertex last active there. The records of regions that
have been left are kept, because history may bring them back.
-/

namespace Statechart

/-! ## Records -/

/-- The vertex last active in each region, by region. -/
structure Records where
  entries : List (RegionId × VertexId) := []
deriving DecidableEq, Repr

namespace Records

/-- Puts `v` at `r`, before the first entry of a greater region. -/
def insertEntry (r : RegionId) (v : VertexId) : List (RegionId × VertexId) → List (RegionId × VertexId)
  | [] => [(r, v)]
  | (s, w) :: rest =>
    if r.index < s.index then (r, v) :: (s, w) :: rest
    else if r = s then (r, v) :: rest
    else (s, w) :: insertEntry r v rest

def lookup (r : RegionId) : List (RegionId × VertexId) → Option VertexId
  | [] => none
  | (s, w) :: rest => if s = r then some w else lookup r rest

def get? (records : Records) (r : RegionId) : Option VertexId := lookup r records.entries

def set (records : Records) (r : RegionId) (v : VertexId) : Records := ⟨insertEntry r v records.entries⟩

theorem lookup_insertEntry (r s : RegionId) (v : VertexId) (l : List (RegionId × VertexId)) :
    lookup s (insertEntry r v l) = if r = s then some v else lookup s l := by
  induction l with
  | nil => simp [insertEntry, lookup]
  | cons e l ih =>
    obtain ⟨t, w⟩ := e
    simp only [insertEntry]
    split
    · by_cases h : r = s <;> simp [lookup, h]
    · split
      · rename_i h; subst h; by_cases h : r = s <;> simp [lookup, h]
      · rename_i hrt
        simp only [lookup, ih]
        by_cases h : r = s
        · subst h; simp [Ne.symm hrt]
        · simp [h]

theorem get?_set (records : Records) (r s : RegionId) (v : VertexId) :
    (records.set r v).get? s = if r = s then some v else records.get? s :=
  lookup_insertEntry r s v records.entries

@[simp] theorem get?_set_self (records : Records) (r : RegionId) (v : VertexId) :
    (records.set r v).get? r = some v := by
  simp [get?_set]

theorem get?_set_of_ne (records : Records) {r s : RegionId} (v : VertexId) (h : r ≠ s) :
    (records.set r v).get? s = records.get? s := by
  simp [get?_set, h]

@[simp] theorem get?_empty (r : RegionId) : ({} : Records).get? r = none := rfl

end Records

/-! ## Instances -/

/-- One run of a statechart: where it stands, whether it has terminated, and data of the caller's. -/
structure Instance (δ : Type) where
  records : Records := {}
  terminated : Bool := false
  data : δ

namespace Instance

variable {δ : Type}

/-- The vertex last active in `r`, if `r` was ever entered. -/
def current? (i : Instance δ) (r : RegionId) : Option VertexId := i.records.get? r

def setCurrent (i : Instance δ) (r : RegionId) (v : VertexId) : Instance δ :=
  { i with records := i.records.set r v }

def setTerminated (i : Instance δ) (terminated : Bool) : Instance δ := { i with terminated }

theorem current?_setCurrent (i : Instance δ) (r s : RegionId) (v : VertexId) :
    (i.setCurrent r v).current? s = if r = s then some v else i.current? s :=
  i.records.get?_set r s v

@[simp] theorem current?_setTerminated (i : Instance δ) (b : Bool) (r : RegionId) :
    (i.setTerminated b).current? r = i.current? r := rfl

@[simp] theorem terminated_setCurrent (i : Instance δ) (r : RegionId) (v : VertexId) :
    (i.setCurrent r v).terminated = i.terminated := rfl

@[simp] theorem data_setCurrent (i : Instance δ) (r : RegionId) (v : VertexId) :
    (i.setCurrent r v).data = i.data := rfl

end Instance

end Statechart
