import Statechart.Path
import Statechart.Proofs.Arena

/-!
# Ancestry and activity

Where a model hangs together every vertex has a path, made by going from owner to owner. A region is above a vertex
if it is on the path to it; the active vertices are those all of whose path is recorded.
-/

namespace Statechart

namespace Model

variable {μ δ : Type} {m : Model μ δ}

/-! ## Paths -/

theorem pathWithin?_succ {v o : VertexId} {r : RegionId} (hv : m.parent? v = some r) (ho : m.owner? r = some o)
    (height : Nat) : m.pathWithin? (height + 1) v = (m.pathWithin? height o).map (· ++ [(r, v)]) := by
  obtain ⟨record, hrec, hp⟩ := parent?_eq_some.mp hv
  obtain ⟨region, hreg, rfl⟩ := owner?_eq_some.mp ho
  simp [pathWithin?, hrec, hp, hreg]

section
variable (h : m.Arena)
include h

theorem pathWithin?_root {height : Nat} (hh : 0 < height) : m.pathWithin? height root = some [] := by
  obtain ⟨height, rfl⟩ : ∃ k, height = k + 1 := ⟨height - 1, by omega⟩
  obtain ⟨record, hv⟩ := Option.isSome_iff_exists.mp h.vertex?_root_isSome
  have hp := h.parent?_root
  simp only [parent?, hv, Option.bind_some] at hp
  simp [pathWithin?, hv, hp]

theorem pathWithin?_stable (v : VertexId) (hv : (m.vertex? v).isSome) :
    ∃ path, ∀ height, v.index < height → m.pathWithin? height v = some path := by
  rcases h.root_or_owner hv with rfl | ⟨r, o, hp, ho, hlt⟩
  · exact ⟨[], fun height hh => pathWithin?_root h (by omega)⟩
  · obtain ⟨path, hpath⟩ := pathWithin?_stable o (vertex?_isSome_of_isState (h.isState_of_owner? ho))
    refine ⟨path ++ [(r, v)], fun height hh => ?_⟩
    obtain ⟨height, rfl⟩ : ∃ k, height = k + 1 := ⟨height - 1, by omega⟩
    rw [pathWithin?_succ hp ho, hpath height (by omega)]
    rfl
termination_by v.index

theorem path?_isSome {v : VertexId} (hv : (m.vertex? v).isSome) : m.path? v = some (m.path v) := by
  obtain ⟨path, hpath⟩ := pathWithin?_stable h v hv
  have : m.path? v = some path := hpath _ (vertex?_isSome_iff.mp hv)
  simp [Model.path, this]

theorem path_root : m.path root = [] := by
  have hsize := vertex?_isSome_iff.mp h.vertex?_root_isSome
  have : m.path? root = some [] := pathWithin?_root h (by omega)
  simp [Model.path, this]

theorem path_eq {v o : VertexId} {r : RegionId} (hv : m.parent? v = some r) (ho : m.owner? r = some o) :
    m.path v = m.path o ++ [(r, v)] := by
  have hknown := vertex?_isSome_of_parent? hv
  obtain ⟨path, hpath⟩ := pathWithin?_stable h o (vertex?_isSome_of_isState (h.isState_of_owner? ho))
  have hlt := h.owner?_lt hv ho
  have hsize := vertex?_isSome_iff.mp hknown
  have hpo : m.path? o = some path := hpath _ (by omega)
  obtain ⟨size, hsz⟩ : ∃ k, m.vertices.size = k + 1 := ⟨m.vertices.size - 1, by omega⟩
  have hpv : m.path? v = some (path ++ [(r, v)]) := by
    unfold path?; rw [hsz, pathWithin?_succ hv ho, hpath size (by omega)]; rfl
  simp [Model.path, hpo, hpv]

end

/-! ## Regions above a vertex -/

/-- `r` is on the way from the root to `v`. -/
def Above (m : Model μ δ) (r : RegionId) (v : VertexId) : Prop := r ∈ (m.path v).map Prod.fst

instance decidableAbove (m : Model μ δ) (r : RegionId) (v : VertexId) : Decidable (m.Above r v) :=
  inferInstanceAs (Decidable (r ∈ (m.path v).map Prod.fst))

/-- `q` is `r` or lies beneath it. -/
def Encloses (m : Model μ δ) (r q : RegionId) : Prop := r = q ∨ ∃ o, m.owner? q = some o ∧ m.Above r o

theorem vertex?_isSome_of_above {r : RegionId} {v : VertexId} (hr : m.Above r v) : (m.vertex? v).isSome := by
  cases hv : m.vertex? v with
  | some record => rfl
  | none =>
    have hpath : m.path v = [] := by
      unfold path path?
      cases m.vertices.size <;> simp [pathWithin?, hv]
    simp [Above, hpath] at hr

theorem encloses_refl (r : RegionId) : m.Encloses r r := Or.inl rfl

section
variable (h : m.Arena)
include h

theorem not_above_root (r : RegionId) : ¬ m.Above r root := by
  unfold Above; rw [path_root h]; simp

theorem above_iff {v : VertexId} {q : RegionId} (hv : m.parent? v = some q) (r : RegionId) :
    m.Above r v ↔ m.Encloses r q := by
  obtain ⟨o, ho⟩ := h.owner?_of_parent? hv
  unfold Encloses Above
  rw [path_eq h hv ho]
  simp only [List.map_append, List.map_cons, List.map_nil, List.mem_append, List.mem_singleton]
  constructor
  · rintro (hr | rfl)
    · exact Or.inr ⟨o, ho, hr⟩
    · exact Or.inl rfl
  · rintro (rfl | ⟨o', ho', hr⟩)
    · exact Or.inr rfl
    · rw [ho] at ho'; cases ho'; exact Or.inl hr

theorem above_parent {v : VertexId} {r : RegionId} (hv : m.parent? v = some r) : m.Above r v :=
  (above_iff h hv r).mpr (encloses_refl r)

theorem above_of_parent_eq {v w : VertexId} {r : RegionId} (hp : m.parent? v = m.parent? w) (hv : m.Above r v) :
    m.Above r w := by
  rcases h.root_or_owner (vertex?_isSome_of_above hv) with rfl | ⟨q, _, hq, _, _⟩
  · exact absurd hv (not_above_root h r)
  · exact (above_iff h (hp.symm.trans hq) r).mpr ((above_iff h hq r).mp hv)

theorem above_of_owner {v o : VertexId} {q r : RegionId} (hv : m.parent? v = some q) (ho : m.owner? q = some o)
    (hr : m.Above r o) : m.Above r v :=
  (above_iff h hv r).mpr (Or.inr ⟨o, ho, hr⟩)

theorem above_trans {r q : RegionId} (hrq : m.Encloses r q) (v : VertexId) (hv : (m.vertex? v).isSome) :
    m.Above q v → m.Above r v := by
  refine h.induction (motive := fun v => m.Above q v → m.Above r v) ?_ ?_ v hv
  · intro hq; exact absurd hq (not_above_root h q)
  · intro v p o hp ho ih hq
    rcases (above_iff h hp q).mp hq with rfl | ⟨o', ho', hqo⟩
    · exact (above_iff h hp r).mpr hrq
    · rw [ho] at ho'; cases ho'; exact above_of_owner h hp ho (ih hqo)

theorem encloses_trans {r q s : RegionId} (hrq : m.Encloses r q) (hqs : m.Encloses q s) : m.Encloses r s := by
  rcases hqs with rfl | ⟨o, ho, hqo⟩
  · exact hrq
  · exact Or.inr ⟨o, ho, above_trans h hrq o (vertex?_isSome_of_isState (h.isState_of_owner? ho)) hqo⟩

theorem root_or_above {v : VertexId} (hv : (m.vertex? v).isSome) :
    v = root ∨ ∃ q ∈ m.regionsOf root, m.Above q v := by
  refine h.induction (motive := fun v => v = root ∨ ∃ q ∈ m.regionsOf root, m.Above q v) (Or.inl rfl) ?_ v hv
  intro v p o hp ho ih
  rcases ih with rfl | ⟨q, hq, ha⟩
  · exact Or.inr ⟨p, h.mem_regionsOf.mpr ho, above_parent h hp⟩
  · exact Or.inr ⟨q, hq, above_of_owner h hp ho ha⟩

theorem of_mem_path {r : RegionId} {w : VertexId} (v : VertexId) (hv : (m.vertex? v).isSome) :
    (r, w) ∈ m.path v → m.parent? w = some r ∧ (w = v ∨ ∃ q, m.owner? q = some w ∧ m.Above q v) := by
  refine h.induction (motive := fun v => (r, w) ∈ m.path v →
    m.parent? w = some r ∧ (w = v ∨ ∃ q, m.owner? q = some w ∧ m.Above q v)) ?_ ?_ v hv
  · intro hm; rw [path_root h] at hm; cases hm
  · intro v p o hp ho ih hm
    rw [path_eq h hp ho] at hm
    rcases List.mem_append.mp hm with hm | hm
    · obtain ⟨hw, rfl | ⟨q, hq, hqo⟩⟩ := ih hm
      · exact ⟨hw, Or.inr ⟨p, ho, above_parent h hp⟩⟩
      · exact ⟨hw, Or.inr ⟨q, hq, above_of_owner h hp ho hqo⟩⟩
    · simp only [List.mem_singleton, Prod.mk.injEq] at hm
      obtain ⟨rfl, rfl⟩ := hm
      exact ⟨hp, Or.inl rfl⟩

theorem index_lt_of_above {q : RegionId} {s : VertexId} (hs : m.owner? q = some s) (v : VertexId)
    (hv : (m.vertex? v).isSome) : m.Above q v → s.index < v.index := by
  refine h.induction (motive := fun v => m.Above q v → s.index < v.index) ?_ ?_ v hv
  · intro hq; exact absurd hq (not_above_root h q)
  · intro v p o hp ho ih hq
    have hlt := h.owner?_lt hp ho
    rcases (above_iff h hp q).mp hq with rfl | ⟨o', ho', hqo⟩
    · rw [hs] at ho; cases ho; exact hlt
    · rw [ho] at ho'; cases ho'; have := ih hqo; omega

theorem ne_of_above {q : RegionId} {s v : VertexId} (hs : m.owner? q = some s) (hv : (m.vertex? v).isSome)
    (hq : m.Above q v) : v ≠ s := by
  rintro rfl; exact absurd (index_lt_of_above h hs v hv hq) (by omega)

end

/-! ## Activity -/

theorem isActive_of_records {i i' : Instance δ} (hr : i'.records = i.records) (v : VertexId) :
    m.isActive i' v = m.isActive i v := by
  simp only [isActive, isActive?, Instance.current?, hr]

section
variable (h : m.Arena)
include h

theorem isActive_iff {i : Instance δ} {v : VertexId} (hv : (m.vertex? v).isSome) :
    m.isActive i v = true ↔ ∀ r w, (r, w) ∈ m.path v → i.current? r = some w := by
  simp only [isActive, isActive?, path?_isSome h hv, Option.map_some, Option.getD_some, List.all_eq_true, beq_iff_eq]
  exact ⟨fun hall r w hm => hall (r, w) hm, fun hall p hm => hall p.1 p.2 hm⟩

theorem isActive?_eq {i : Instance δ} {v : VertexId} (hv : (m.vertex? v).isSome) :
    m.isActive? i v = some (m.isActive i v) := by
  simp [isActive, isActive?, path?_isSome h hv]

theorem isActive_root (i : Instance δ) : m.isActive i root = true := by
  rw [isActive_iff h h.vertex?_root_isSome, path_root h]; simp

theorem isActive_step {i : Instance δ} {v o : VertexId} {r : RegionId} (hv : m.parent? v = some r)
    (ho : m.owner? r = some o) : m.isActive i v = true ↔ i.current? r = some v ∧ m.isActive i o = true := by
  rw [isActive_iff h (vertex?_isSome_of_parent? hv),
    isActive_iff h (vertex?_isSome_of_isState (h.isState_of_owner? ho)), path_eq h hv ho]
  constructor
  · intro hall
    exact ⟨hall r v (by simp), fun q w hm => hall q w (by simp [hm])⟩
  · rintro ⟨hr, hall⟩ q w hm
    rcases List.mem_append.mp hm with hm | hm
    · exact hall q w hm
    · simp only [List.mem_singleton, Prod.mk.injEq] at hm
      obtain ⟨rfl, rfl⟩ := hm; exact hr

theorem current?_of_above {i : Instance δ} {v : VertexId} {r : RegionId} (hv : (m.vertex? v).isSome)
    (ha : m.isActive i v = true) (hr : m.Above r v) :
    ∃ w, i.current? r = some w ∧ m.parent? w = some r ∧ (w = v ∨ ∃ q, m.owner? q = some w ∧ m.Above q v) := by
  obtain ⟨⟨r', w⟩, hm, rfl⟩ := List.mem_map.mp hr
  exact ⟨w, (isActive_iff h hv).mp ha _ w hm, of_mem_path h v hv hm⟩

theorem isActive_of_above {i : Instance δ} {s : VertexId} {q : RegionId} (hs : m.owner? q = some s) (v : VertexId)
    (hv : (m.vertex? v).isSome) : m.isActive i v = true → m.Above q v → m.isActive i s = true := by
  refine h.induction (motive := fun v => m.isActive i v = true → m.Above q v → m.isActive i s = true) ?_ ?_ v hv
  · intro _ hq; exact absurd hq (not_above_root h q)
  · intro v p o hp ho ih ha hq
    have hao := ((isActive_step h hp ho).mp ha).2
    rcases (above_iff h hp q).mp hq with rfl | ⟨o', ho', hqo⟩
    · rw [hs] at ho; cases ho; exact hao
    · rw [ho] at ho'; cases ho'; exact ih hao hqo

theorem isActive_congr {i i' : Instance δ} {v : VertexId} (hv : (m.vertex? v).isSome)
    (heq : ∀ r, m.Above r v → i'.current? r = i.current? r) : m.isActive i' v = m.isActive i v := by
  rw [Bool.eq_iff_iff, isActive_iff h hv, isActive_iff h hv]
  constructor
  · intro hall r w hm; rw [← heq r (List.mem_map.mpr ⟨_, hm, rfl⟩)]; exact hall r w hm
  · intro hall r w hm; rw [heq r (List.mem_map.mpr ⟨_, hm, rfl⟩)]; exact hall r w hm

end

theorem allM_congr {α : Type} {f g : α → Option Bool} {l : List α} (heq : ∀ x ∈ l, f x = g x) : l.allM f = l.allM g := by
  induction l with
  | nil => rfl
  | cons x l ih =>
    simp only [List.allM]
    rw [heq x (by simp), ih fun y hy => heq y (List.mem_cons_of_mem x hy)]

theorem of_mem_allM {α : Type} {f : α → Option Bool} {l : List α} (hl : l.allM f = some true) {x : α} (hx : x ∈ l) :
    f x = some true := by
  induction l with
  | nil => cases hx
  | cons y l ih =>
    simp only [List.allM, Option.bind_eq_bind] at hl
    obtain ⟨b, hb, hrest⟩ := Option.bind_eq_some_iff.mp hl
    cases b with
    | false => cases hrest
    | true => exact (List.mem_cons.mp hx).elim (fun heq => heq ▸ hb) (ih hrest)

theorem exists_final_of_isComplete {i : Instance δ} {v : VertexId} {r : RegionId} (hv : m.isComplete? i v = some true)
    (hr : r ∈ m.regionsOf v) : ∃ w, i.current? r = some w ∧ m.isFinal w = true := by
  unfold isComplete? at hv
  obtain ⟨record, hrec, hv⟩ := Option.bind_eq_some_iff.mp hv
  cases hf : record.form with
  | pseudo kind => rw [hf] at hv; cases hv
  | state content =>
    rw [hf] at hv
    have hfinal := of_mem_allM hv (by simpa [regionsOf, hrec, Vertex.regions, hf] using hr)
    cases hw : i.current? r with
    | none => rw [hw] at hfinal; cases hfinal
    | some w =>
      rw [hw] at hfinal
      obtain ⟨record', hrec', hfinal⟩ := Option.map_eq_some_iff.mp hfinal
      exact ⟨w, rfl, by simp [isFinal, hrec', hfinal]⟩

theorem isComplete?_congr {i i' : Instance δ} {v : VertexId}
    (heq : ∀ r ∈ m.regionsOf v, i'.current? r = i.current? r) : m.isComplete? i' v = m.isComplete? i v := by
  unfold isComplete?
  cases hv : m.vertex? v with
  | none => rfl
  | some record =>
    simp only [Option.bind_some]
    cases hf : record.form with
    | pseudo kind => rfl
    | state content =>
      refine allM_congr fun r hr => ?_
      rw [heq r (by simpa [regionsOf, hv, Vertex.regions, hf] using hr)]

/-! ## Fitting records -/

/-- Each region records one of its own vertices, and where `plain` is set, a state. -/
def Fits (m : Model μ δ) (plain : Bool) (i : Instance δ) : Prop :=
  ∀ r v, i.current? r = some v → m.parent? v = some r ∧ (plain = true → m.isState v = true)

variable {plain : Bool}

theorem Fits.congr {i i' : Instance δ} (h : m.Fits plain i) (hr : i'.records = i.records) : m.Fits plain i' := by
  intro r v hv
  exact h r v (by rw [Instance.current?, ← hr]; exact hv)

theorem Fits.weaken {i : Instance δ} (h : m.Fits plain i) : m.Fits false i := fun r v hv => ⟨(h r v hv).1, by simp⟩

theorem Fits.setCurrent {i : Instance δ} (h : m.Fits plain i) {r : RegionId} {v : VertexId}
    (hv : m.parent? v = some r) (hs : plain = true → m.isState v = true) : m.Fits plain (i.setCurrent r v) := by
  intro q w hw
  rw [Instance.current?_setCurrent] at hw
  split at hw
  · rename_i hq; subst hq; cases hw; exact ⟨hv, hs⟩
  · exact h q w hw

theorem fits_empty (data : δ) : m.Fits plain { data } := by
  intro r v hv; cases hv

theorem Fits.vertex?_isSome {i : Instance δ} (h : m.Fits plain i) {r : RegionId} {v : VertexId}
    (hv : i.current? r = some v) : (m.vertex? v).isSome :=
  vertex?_isSome_of_parent? (h r v hv).1

theorem isSome_allM {α : Type} {f : α → Option Bool} (hf : ∀ x, (f x).isSome) (l : List α) : (l.allM f).isSome := by
  induction l with
  | nil => rfl
  | cons x l ih =>
    obtain ⟨b, hb⟩ := Option.isSome_iff_exists.mp (hf x)
    simp only [List.allM, hb, Option.bind_eq_bind, Option.bind_some]
    cases b with
    | false => rfl
    | true => exact ih

theorem isComplete?_isSome {i : Instance δ} (h : m.Fits plain i) {v : VertexId} (hv : (m.vertex? v).isSome) :
    (m.isComplete? i v).isSome := by
  obtain ⟨record, hrec⟩ := Option.isSome_iff_exists.mp hv
  simp only [isComplete?, hrec, Option.bind_some]
  cases record.form with
  | pseudo kind => rfl
  | state content =>
    refine isSome_allM (fun r => ?_) content.regions
    cases hr : i.current? r with
    | none => rfl
    | some current => simp [h.vertex?_isSome hr]

end Model

end Statechart
