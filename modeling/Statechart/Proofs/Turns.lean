import Mathlib.Data.Set.Basic
import Statechart.Proofs.Execution

/-!
# Turns of entering and leaving

What the events tell of one state are entries and exits in turn. A configuration is balanced if the states that have
been entered last are the active ones, apart from a set of vertices that have been left although they are still
recorded.
-/

namespace Statechart

variable {μ δ : Type}

def Event.isOf (s : VertexId) : Event μ δ → Bool
  | .entered (.vertex v) | .left (.vertex v) | .acted (.entry v) | .acted (.exit v) => v = s
  | _ => false

namespace Model

variable (m : Model μ δ)

/-- The turn that comes after `n` others: an entry if that is an even number, or else an exit. -/
def turn (s : VertexId) (n : Nat) : List (Event μ δ) := if n % 2 = 0 then m.entryEvents s else m.exitEvents s

def turns (s : VertexId) : Nat → List (Event μ δ)
  | 0 => []
  | n + 1 => turns s n ++ m.turn s n

/-- What the events, the latest first, tell of `s` are `n` turns. -/
def Took (s : VertexId) (events : List (Event μ δ)) (n : Nat) : Prop :=
  events.reverse.filter (·.isOf s) = m.turns s n

variable {m}

theorem filter_turn {s v : VertexId} (n : Nat) : (m.turn v n).filter (·.isOf s) = if v = s then m.turn v n else [] := by
  unfold turn
  split <;> by_cases hv : v = s <;> simp [entryEvents, exitEvents, Event.isOf, hv]

theorem Took.turn {s : VertexId} {events : List (Event μ δ)} {n : Nat} (ht : m.Took s events n) :
    m.Took s ((m.turn s n).reverse ++ events) (n + 1) := by
  unfold Took at ht ⊢
  rw [List.reverse_append, List.reverse_reverse, List.filter_append, ht, filter_turn, if_pos rfl]
  rfl

theorem Took.skip {s : VertexId} {events others : List (Event μ δ)} {n : Nat}
    (ho : others.filter (·.isOf s) = []) (ht : m.Took s events n) : m.Took s (others ++ events) n := by
  unfold Took at ht ⊢
  rw [List.reverse_append, List.filter_append, ht, List.filter_reverse, ho]
  simp

theorem Took.other {s v : VertexId} {events : List (Event μ δ)} {n : Nat} (hv : v ≠ s) (k : Nat)
    (ht : m.Took s events n) : m.Took s ((m.turn v k).reverse ++ events) n :=
  ht.skip (by rw [List.filter_reverse, filter_turn, if_neg hv]; rfl)

/-! ## Sets of vertices -/

variable (m)

def Beneath (v : VertexId) : Set VertexId := {w | ∃ q ∈ m.regionsOf v, m.Above q w}

/-- The vertices of the region of `v` and all beneath them; for the root, all vertices. -/
def Around (v : VertexId) : Set VertexId := {w | ∀ r, m.parent? v = some r → m.Above r w}

variable {m}

section
variable (h : m.Arena)
include h

theorem not_mem_beneath {v : VertexId} (hv : (m.vertex? v).isSome) : v ∉ m.Beneath v := by
  rintro ⟨q, hq, hqv⟩
  exact ne_of_above h (h.mem_regionsOf.mp hq) hv hqv rfl

theorem above_of_mem_beneath {v w : VertexId} {r : RegionId} (hv : m.parent? v = some r) (hw : w ∈ m.Beneath v) :
    m.Above r w := by
  obtain ⟨q, hq, hqw⟩ := hw
  exact above_trans h (Or.inr ⟨v, h.mem_regionsOf.mp hq, above_parent h hv⟩) w (vertex?_isSome_of_above hqw) hqw

theorem beneath_subset_around (v : VertexId) : m.Beneath v ⊆ m.Around v :=
  fun _ hw _ hv => above_of_mem_beneath h hv hw

theorem mem_around_self (v : VertexId) : v ∈ m.Around v := fun _ hv => above_parent h hv

theorem mem_around_iff {i : Instance δ} {v w : VertexId} (hv : m.isActive i v = true) (hvknown : (m.vertex? v).isSome)
    (hw : (m.vertex? w).isSome) (ha : m.isActive i w = true) : w ∈ m.Around v ↔ w = v ∨ w ∈ m.Beneath v := by
  constructor
  · intro haround
    rcases h.root_or_owner hvknown with rfl | ⟨r, o, hp, ho, _⟩
    · exact root_or_above h hw
    · obtain ⟨x, hx, _, hway⟩ := current?_of_above h hw ha (haround r hp)
      rw [((isActive_step h hp ho).mp hv).1] at hx; cases hx
      exact hway.imp Eq.symm fun ⟨q, hq, hqw⟩ => ⟨q, h.mem_regionsOf.mpr hq, hqw⟩
  · rintro (rfl | hw)
    · exact mem_around_self h w
    · exact beneath_subset_around h v hw

end

/-! ## Balance -/

/-- Each state has taken its turns, and has been entered last if and only if it is active and not in `X`. -/
def Balanced (m : Model μ δ) (X : Set VertexId) (i : Instance δ) (events : List (Event μ δ)) : Prop :=
  ∀ s, m.isState s = true → ∃ n, m.Took s events n ∧ (n % 2 = 1 ↔ m.isActive i s = true ∧ s ∉ X)

variable {X Y : Set VertexId} {i i' : Instance δ} {events : List (Event μ δ)}

theorem Balanced.congr (h : m.Arena) (hb : m.Balanced X i events) (hr : i'.records = i.records)
    (hX : ∀ s, m.isState s = true → m.isActive i s = true → (s ∈ X ↔ s ∈ Y)) : m.Balanced Y i' events := by
  intro s hs
  obtain ⟨n, hn, hiff⟩ := hb s hs
  refine ⟨n, hn, hiff.trans ?_⟩
  rw [isActive_congr h (vertex?_isSome_of_isState hs) fun q _ => show i'.current? q = i.current? q by
    rw [Instance.current?, hr]; rfl]
  exact and_congr_right fun ha => not_congr (hX s hs ha)

theorem Balanced.skip {others : List (Event μ δ)} (hb : m.Balanced X i events)
    (ho : ∀ s, m.isState s = true → others.filter (·.isOf s) = []) : m.Balanced X i (others ++ events) := by
  intro s hs
  obtain ⟨n, hn, hiff⟩ := hb s hs
  exact ⟨n, hn.skip (ho s hs), hiff⟩

theorem Balanced.enter (h : m.Arena) {v o : VertexId} {r : RegionId} (hv : m.isState v = true)
    (hp : m.parent? v = some r) (ho : m.owner? r = some o) (hactive : m.isActive i o = true) (hX : v ∉ X)
    (hb : m.Balanced (X ∪ m.Around v) i events) :
    m.Balanced (X ∪ m.Beneath v) (i.setCurrent r v) ((m.entryEvents v).reverse ++ events) ∧
      m.isActive (i.setCurrent r v) v = true := by
  have hsame : ∀ q, r ≠ q → (i.setCurrent r v).current? q = i.current? q := fun q hq => by
    rw [Instance.current?_setCurrent, if_neg hq]
  have hself : m.isActive (i.setCurrent r v) v = true := by
    refine (isActive_step h hp ho).mpr ⟨by simp [Instance.current?_setCurrent], ?_⟩
    rw [isActive_congr h (vertex?_isSome_of_isState (h.isState_of_owner? ho)) fun q hq => hsame q ?_]
    · exact hactive
    · rintro rfl; exact not_above_owner h ho hq
  refine ⟨fun s hs => ?_, hself⟩
  have hknown := vertex?_isSome_of_isState hs
  obtain ⟨n, hn, hiff⟩ := hb s hs
  -- Of the states around `v`, `v` has taken one more turn, and the others have not changed.
  by_cases hsv : s = v
  · subst hsv
    have heven : ¬ n % 2 = 1 := fun hodd => (hiff.mp hodd).2 (Or.inr (mem_around_self h s))
    refine ⟨n + 1, ?_, ?_⟩
    · have hturn : m.turn s n = m.entryEvents s := if_pos (by omega)
      exact hturn ▸ hn.turn
    · refine iff_of_true (by omega) ⟨hself, ?_⟩
      exact fun hmem => hmem.elim hX (not_mem_beneath h hknown)
  · refine ⟨n, hn.other (Ne.symm hsv) 0, hiff.trans ?_⟩
    by_cases hr : m.Above r s
    · -- An active state here is beneath `v` now.
      refine iff_of_false (fun hboth => hboth.2 (Or.inr fun q hq => ?_)) fun hboth => hboth.2 (Or.inr ?_)
      · rw [hp] at hq; cases hq; exact hr
      · refine ((mem_around_iff h hself (vertex?_isSome_of_isState hv) hknown hboth.1).mp fun q hq => ?_).resolve_left hsv
        rw [hp] at hq; cases hq; exact hr
    · rw [isActive_congr h hknown fun q hq => hsame q fun heq => hr (heq ▸ hq)]
      refine and_congr_right fun _ => not_congr (or_congr_right ⟨fun hmem => absurd (hmem r hp) hr, fun hmem => ?_⟩)
      exact absurd (above_of_mem_beneath h hp hmem) hr

theorem Balanced.enter_root (h : m.Arena) (hX : root ∉ X) (hb : m.Balanced (X ∪ m.Around root) i events) :
    m.Balanced (X ∪ m.Beneath root) i ((m.entryEvents root).reverse ++ events) := by
  have hall : ∀ s, s ∈ m.Around root := fun s r hr => by rw [h.parent?_root] at hr; cases hr
  intro s hs
  obtain ⟨n, hn, hiff⟩ := hb s hs
  have heven : ¬ n % 2 = 1 := fun hodd => (hiff.mp hodd).2 (Or.inr (hall s))
  rcases root_or_above h (vertex?_isSome_of_isState hs) with rfl | hbeneath
  · refine ⟨n + 1, ?_, iff_of_true (by omega) ⟨isActive_root h i, ?_⟩⟩
    · have hturn : m.turn root n = m.entryEvents root := if_pos (by omega)
      exact hturn ▸ hn.turn
    · exact fun hmem => hmem.elim hX (not_mem_beneath h h.vertex?_root_isSome)
  · refine ⟨n, hn.other ?_ 0, iff_of_false heven fun hboth => hboth.2 (Or.inr hbeneath)⟩
    rintro rfl; exact not_mem_beneath h h.vertex?_root_isSome hbeneath

theorem Balanced.leave (h : m.Arena) {v : VertexId} (hv : m.isState v = true) (ha : m.isActive i v = true) (hX : v ∉ X)
    (hb : m.Balanced (X ∪ m.Beneath v) i events) :
    m.Balanced (X ∪ m.Around v) i ((m.exitEvents v).reverse ++ events) := by
  have hvknown := vertex?_isSome_of_isState hv
  intro s hs
  have hknown := vertex?_isSome_of_isState hs
  obtain ⟨n, hn, hiff⟩ := hb s hs
  by_cases hsv : s = v
  · subst hsv
    have hodd : n % 2 = 1 := hiff.mpr ⟨ha, fun hmem => hmem.elim hX (not_mem_beneath h hknown)⟩
    refine ⟨n + 1, ?_, iff_of_false (by omega) fun hboth => hboth.2 (Or.inr (mem_around_self h s))⟩
    have hturn : m.turn s n = m.exitEvents s := if_neg (by omega)
    exact hturn ▸ hn.turn
  · refine ⟨n, hn.other (Ne.symm hsv) 1, hiff.trans (and_congr_right fun hactive => not_congr (or_congr_right ?_))⟩
    rw [mem_around_iff h ha hvknown hknown hactive]
    exact ⟨Or.inr, fun hmem => hmem.resolve_left hsv⟩

end Model

end Statechart
