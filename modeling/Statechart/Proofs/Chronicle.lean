import Statechart.Proofs.Turns

/-!
# Chronicles

The events of a run tell which state of a region was entered last, and so what history is to bring back. Each event of
a chronicle is lawful given the events before it: a state is entered while all states above it stand, and left while
nothing beneath it stands. What is recorded when a state is left is then recorded until it is entered again, and where
its region is entered by history, from then on as well.
-/

namespace Statechart

variable {μ δ : Type}

/-! ## Reading events -/

def Event.isOffer : Event μ δ → Bool
  | .offered .. => true
  | _ => false

instance decidableEqEntered (event : Event μ δ) (element : Element) : Decidable (event = .entered element) :=
  match event with
  | .entered other => decidable_of_iff (other = element) (by simp)
  | .left _ | .acted _ | .offered .. | .fired .. | .drew .. | .reported _ => isFalse (by simp)

instance decidableEqLeft (event : Event μ δ) (element : Element) : Decidable (event = .left element) :=
  match event with
  | .left other => decidable_of_iff (other = element) (by simp)
  | .entered _ | .acted _ | .offered .. | .fired .. | .drew .. | .reported _ => isFalse (by simp)

/-- The events since a trigger was last offered. As always the latest comes first. -/
def sinceOffer (events : List (Event μ δ)) : List (Event μ δ) := events.takeWhile fun event => !event.isOffer

/-- `s` has been entered and not been left since. -/
def IsIn (s : VertexId) : List (Event μ δ) → Prop
  | [] => False
  | event :: earlier => event = .entered (.vertex s) ∨ event ≠ .left (.vertex s) ∧ IsIn s earlier

variable {s : VertexId} {event : Event μ δ} {events earlier : List (Event μ δ)}

theorem sinceOffer_cons (he : event.isOffer = false) : sinceOffer (event :: events) = event :: sinceOffer events := by
  simp [sinceOffer, he]

theorem mem_sinceOffer_cons {other : Event μ δ} (he : event.isOffer = false) (ho : other ∈ sinceOffer events) :
    other ∈ sinceOffer (event :: events) := by
  rw [sinceOffer_cons he]
  exact List.mem_cons_of_mem event ho

theorem isIn_cons (hs : IsIn s (event :: events)) : event = .entered (.vertex s) ∨ IsIn s events :=
  hs.imp id fun h => h.2

theorem IsIn.cons (hs : IsIn s events) (he : event ≠ .left (.vertex s)) : IsIn s (event :: events) := Or.inr ⟨he, hs⟩

theorem IsIn.mem (hs : IsIn s events) : .entered (.vertex s) ∈ events := by
  induction events with
  | nil => exact hs.elim
  | cons event events ih =>
    rcases isIn_cons hs with rfl | hs
    · exact List.mem_cons_self
    · exact List.mem_cons_of_mem event (ih hs)

theorem isIn_filter : IsIn s (events.filter (·.isOf s)) ↔ IsIn s events := by
  induction events with
  | nil => rfl
  | cons event events ih =>
    rw [List.filter_cons]
    split
    · exact or_congr_right (and_congr_right fun _ => ih)
    · rename_i hof
      have hentered : event ≠ .entered (.vertex s) := by rintro rfl; simp [Event.isOf] at hof
      have hleft : event ≠ .left (.vertex s) := by rintro rfl; simp [Event.isOf] at hof
      rw [ih]
      exact ⟨fun h => h.cons hleft, fun h => (isIn_cons h).resolve_left hentered⟩

theorem isIn_acted (cause : Cause) (n : Nat) :
    IsIn s (List.replicate n (.acted cause) ++ events) ↔ IsIn s events := by
  induction n with
  | zero => rfl
  | succ n ih => simpa [List.replicate_succ, IsIn] using ih

namespace Model

variable (m : Model μ δ)

def entryInto? (q : RegionId) : Event μ δ → Option VertexId
  | .entered (.vertex v) => if m.isState v = true ∧ m.parent? v = some q then some v else none
  | _ => none

/-- The state of `q` that was entered last. -/
def lastIn? (q : RegionId) (events : List (Event μ δ)) : Option VertexId := events.findSome? (m.entryInto? q)

/-- How `q` is entered by default is for the history at the head of `r` to say: its own one, or a deep one. -/
def Governs (r q : RegionId) : Prop :=
  r = q ∧ (m.headKind? r).any (·.isHistory) = true ∨ m.Encloses r q ∧ m.headKind? r = some .deepHistory

/-- `t` leads to a vertex beneath `r`, and not as the way on from a pseudo state beneath `r`. -/
def LeadsInto (r : RegionId) (t : TransitionId) : Prop :=
  ∃ record u, m.transition? t = some record ∧ record.target = some u ∧ m.Above r u ∧
    (m.isState record.source = true ∨ ¬ m.Above r record.source)

/-- Since a trigger was last offered a transition has been fired that leads into `r`. -/
def Led (r : RegionId) (events : List (Event μ δ)) : Prop :=
  ∃ t trigger before, .fired t trigger before ∈ sinceOffer events ∧ m.LeadsInto r t

def Aimed (u : VertexId) (events : List (Event μ δ)) : Prop :=
  ∃ t trigger before record, .fired t trigger before ∈ sinceOffer events ∧ m.transition? t = some record ∧
    record.target = some u

def aims (u : VertexId) : Event μ δ → Bool
  | .fired t .. => (m.transition? t).any fun record => record.target == some u
  | _ => false

instance decidableAimed (u : VertexId) (events : List (Event μ δ)) : Decidable (m.Aimed u events) :=
  decidable_of_iff ((sinceOffer events).any (m.aims u) = true) <| by
    rw [List.any_eq_true]
    constructor
    · rintro ⟨event, hmem, haims⟩
      cases event with
      | fired t trigger before =>
        obtain ⟨record, hrec, hu⟩ := (Option.any_eq_true _ _).mp haims
        exact ⟨t, trigger, before, record, hmem, hrec, by simpa using hu⟩
      | _ => cases haims
    · rintro ⟨t, trigger, before, record, hmem, hrec, hu⟩
      exact ⟨_, hmem, by simp [aims, hrec, hu]⟩

variable {m} {q r : RegionId} {v : VertexId}

theorem Took.isIn_iff {n : Nat} (ht : m.Took s events n) : IsIn s events ↔ n % 2 = 1 := by
  have hfilter : events.filter (·.isOf s) = (m.turns s n).reverse := by
    rw [← ht, List.filter_reverse, List.reverse_reverse]
  rw [← isIn_filter, hfilter]
  cases n with
  | zero => simp [turns, IsIn]
  | succ n =>
    rw [turns, List.reverse_append]
    unfold Model.turn
    split
    · rw [entryEvents, List.reverse_cons, List.reverse_replicate, List.append_assoc, isIn_acted]
      exact iff_of_true (Or.inl rfl) (by omega)
    · rw [exitEvents, List.reverse_cons, List.reverse_replicate, List.append_assoc, isIn_acted]
      exact iff_of_false (fun hs => hs.elim (by simp) fun h => h.1 rfl) (by omega)

theorem Balanced.isIn_iff {X : Set VertexId} {i : Instance δ} (hb : m.Balanced X i events) (hs : m.isState s = true) :
    IsIn s events ↔ m.isActive i s = true ∧ s ∉ X := by
  obtain ⟨n, htook, hiff⟩ := hb s hs
  exact htook.isIn_iff.trans hiff

theorem entryInto?_eq_some {w : VertexId} :
    m.entryInto? q event = some w ↔ event = .entered (.vertex w) ∧ m.isState w = true ∧ m.parent? w = some q := by
  unfold entryInto?
  split
  · rename_i v
    constructor
    · intro h; split at h
      · cases h; exact ⟨rfl, by assumption⟩
      · cases h
    · rintro ⟨heq, hw⟩; cases heq; exact if_pos hw
  · rename_i hne
    exact iff_of_false (by simp) fun h => hne w h.1

theorem lastIn?_entered (hv : m.isState v = true) (hp : m.parent? v = some q) :
    m.lastIn? q (.entered (.vertex v) :: events) = some v := by
  simp [lastIn?, entryInto?_eq_some.mpr ⟨rfl, hv, hp⟩]

theorem lastIn?_cons_of_none (he : m.entryInto? q event = none) :
    m.lastIn? q (event :: events) = m.lastIn? q events := by
  simp [lastIn?, he]

theorem mem_of_lastIn? {w : VertexId} (hw : m.lastIn? q events = some w) :
    .entered (.vertex w) ∈ events ∧ m.isState w = true ∧ m.parent? w = some q := by
  obtain ⟨event, hmem, he⟩ := List.exists_of_findSome?_eq_some hw
  obtain ⟨rfl, hstate⟩ := entryInto?_eq_some.mp he
  exact ⟨hmem, hstate⟩

theorem lastIn?_isSome_cons (hq : (m.lastIn? q events).isSome) : (m.lastIn? q (event :: events)).isSome := by
  cases he : m.entryInto? q event with
  | none => rwa [lastIn?_cons_of_none he]
  | some w => simp [lastIn?, he]

theorem Led.cons (he : event.isOffer = false) (hr : m.Led r events) : m.Led r (event :: events) := by
  obtain ⟨t, trigger, before, hmem, hleads⟩ := hr
  exact ⟨t, trigger, before, mem_sinceOffer_cons he hmem, hleads⟩

theorem lastIn?_isSome_of_mem (hmem : .entered (.vertex v) ∈ events) (hv : m.isState v = true)
    (hp : m.parent? v = some q) : (m.lastIn? q events).isSome :=
  List.findSome?_isSome_iff.mpr ⟨_, hmem, by simp [entryInto?_eq_some.mpr ⟨rfl, hv, hp⟩]⟩

theorem Governs.encloses (hr : m.Governs r q) : m.Encloses r q := hr.elim (fun hr => Or.inl hr.1) fun hr => hr.1

theorem Governs.around {p : RegionId} (hr : m.Governs r q) (hne : r ≠ q) (hp : m.Encloses r p) : m.Governs r p :=
  Or.inr ⟨hp, (hr.resolve_left fun hr => hne hr.1).2⟩

/-! ## Regions that enclose one another -/

section
variable (h : m.Arena)
include h

theorem encloses_antisymm (hq : m.Encloses r q) (hr : m.Encloses q r) : r = q := by
  rcases hq with heq | ⟨o, ho, ha⟩
  · exact heq
  rcases hr with heq | ⟨o', ho', ha'⟩
  · exact heq.symm
  have := above_trans h (Or.inr ⟨o, ho, ha⟩) o' (vertex?_isSome_of_above ha') ha'
  exact absurd this (not_above_owner h ho')

theorem encloses_or {u : VertexId} (hr : m.Above r u) (hq : m.Above q u) : m.Encloses r q ∨ m.Encloses q r := by
  refine h.induction (motive := fun u => m.Above r u → m.Above q u → m.Encloses r q ∨ m.Encloses q r) ?_ ?_ u
    (vertex?_isSome_of_above hr) hr hq
  · intro hr; exact absurd hr (not_above_root h r)
  · intro v p o hp ho ih hr hq
    rw [above_iff h hp] at hr hq
    rcases hr with rfl | ⟨_, ho', hr⟩
    · exact Or.inr hq
    rcases hq with rfl | ⟨_, ho'', hq⟩
    · exact Or.inl (Or.inr ⟨_, ho', hr⟩)
    rw [ho] at ho' ho''; cases ho'; cases ho''
    exact ih hr hq

omit h in
theorem above_owner {o : VertexId} (ho : m.owner? q = some o) (hne : r ≠ q) (hr : m.Encloses r q) : m.Above r o := by
  rcases hr with heq | ⟨_, ho', hr⟩
  · exact absurd heq hne
  · rw [ho] at ho'; cases ho'; exact hr

theorem encloses_unique {o : VertexId} {p : RegionId} (hr : m.owner? r = some o) (hq : m.owner? q = some o)
    (hrp : m.Encloses r p) (hqp : m.Encloses q p) : r = q := by
  by_contra hne
  rcases hrp with rfl | ⟨x, hx, hrx⟩
  · exact not_above_owner h hq (above_owner hr (Ne.symm hne) hqp)
  · rcases hqp with rfl | ⟨y, hy, hqy⟩
    · exact not_above_owner h hr (above_owner hq hne (Or.inr ⟨x, hx, hrx⟩))
    · rw [hx] at hy; cases hy
      exact hne (above_unique h hr hq hrx hqy)

end

/-! ## Lawful events -/

/-- What is so when the state `v` is entered: all states above it stand, and where history rules it is brought back. -/
structure Entry (m : Model μ δ) (v : VertexId) (earlier : List (Event μ δ)) : Prop where
  around : ∀ q s, m.owner? q = some s → m.Above q v → IsIn s earlier
  recalled : ∀ q r w, m.parent? v = some q → m.Governs r q → m.lastIn? q earlier = some w → v = w ∨ m.Led r earlier

/-- What is so when the state `v` is left: nothing beneath it stands, it is active, and each region of a state that has
ever been entered records a state. -/
structure Exit (m : Model μ δ) (v : VertexId) (earlier : List (Event μ δ)) : Prop where
  known : .entered (.vertex v) ∈ earlier
  beneath : ∀ w ∈ m.Beneath v, m.isState w = true → ¬ IsIn w earlier
  active : ∀ q w, (q, w) ∈ m.path v → m.lastIn? q earlier = some w
  whole : ∀ q o, m.owner? q = some o → .entered (.vertex o) ∈ earlier → (m.lastIn? q earlier).isSome

/-- What is so when `t` is fired: the records are what the events tell, a transition from a state is the first one to be
fired, and one from a pseudo state stays in a region where at most that pseudo state has been aimed at. -/
structure Firing (m : Model μ δ) (t : TransitionId) (before : Instance δ) (earlier : List (Event μ δ)) : Prop where
  records : ∀ q, before.current? q = m.lastIn? q earlier
  first : ∀ record, m.transition? t = some record → m.isState record.source = true →
    ∀ t' trigger before', .fired t' trigger before' ∉ sinceOffer earlier
  inside : ∀ record q, m.transition? t = some record → m.isState record.source = false →
    m.parent? record.source = some q →
    (∀ u, record.target = some u → m.Above q u) ∧ ∀ u, m.Aimed u earlier → m.Above q u → u = record.source

def Law (m : Model μ δ) : Event μ δ → List (Event μ δ) → Prop
  | .entered (.vertex v), earlier => m.isState v = true → m.Entry v earlier
  | .left (.vertex v), earlier => m.isState v = true → m.Exit v earlier
  | .fired t _ before, earlier => m.Firing t before earlier
  | _, _ => True

def Lawful (m : Model μ δ) : List (Event μ δ) → Prop
  | [] => True
  | event :: earlier => m.Law event earlier ∧ Lawful m earlier

theorem Lawful.law {later : List (Event μ δ)} (hl : m.Lawful (later ++ event :: earlier)) : m.Law event earlier := by
  induction later with
  | nil => exact hl.1
  | cons event later ih => exact ih hl.2

theorem Lawful.of_append {later : List (Event μ δ)} (hl : m.Lawful (later ++ earlier)) : m.Lawful earlier := by
  induction later with
  | nil => exact hl
  | cons event later ih => exact ih hl.2

/-! ## While a state is away -/

section
variable (h : m.Arena) {past between : List (Event μ δ)}
include h

/-- Until a state is entered again nothing beneath it is, and what its regions record stays as it is. -/
theorem Lawful.away (hs : m.isState s = true) (hl : m.Lawful (between ++ .left (.vertex s) :: past))
    (hb : .entered (.vertex s) ∉ between) :
    ¬ IsIn s (between ++ .left (.vertex s) :: past) ∧
      (∀ w ∈ m.Beneath s, m.isState w = true → ¬ IsIn w (between ++ .left (.vertex s) :: past)) ∧
      ∀ r ∈ m.regionsOf s, ∀ q, m.Encloses r q →
        m.lastIn? q (between ++ .left (.vertex s) :: past) = m.lastIn? q past := by
  induction between with
  | nil =>
    have hexit : m.Exit s past := hl.1 hs
    refine ⟨fun hin => hin.elim (by simp) fun hin => hin.1 rfl, fun w hw hstate hin => ?_, fun r _ q _ => ?_⟩
    · exact hexit.beneath w hw hstate ((isIn_cons hin).resolve_left (by simp))
    · exact lastIn?_cons_of_none rfl
  | cons event between ih =>
    rw [List.mem_cons, not_or] at hb
    obtain ⟨haway, hbeneath, hsame⟩ := ih hl.2 hb.2
    -- Nothing beneath `s` is entered while `s` is away, since all states around it would have to stand.
    have hnone : ∀ w ∈ m.Beneath s, m.isState w = true → event ≠ .entered (.vertex w) := by
      rintro w ⟨q, hq, hqw⟩ hstate rfl
      have hentry : m.Entry w (between ++ .left (.vertex s) :: past) := hl.1 hstate
      exact haway (hentry.around q s (h.mem_regionsOf.mp hq) hqw)
    refine ⟨fun hin => haway ((isIn_cons hin).resolve_left (Ne.symm hb.1)), fun w hw hstate hin => ?_, ?_⟩
    · exact hbeneath w hw hstate ((isIn_cons hin).resolve_left (hnone w hw hstate))
    · intro r hr q hrq
      rw [List.cons_append, lastIn?_cons_of_none, hsame r hr q hrq]
      by_contra he
      obtain ⟨w, hw⟩ := Option.ne_none_iff_exists'.mp he
      obtain ⟨heq, hstate, hp⟩ := entryInto?_eq_some.mp hw
      exact hnone w ⟨r, hr, (above_iff h hp r).mpr hrq⟩ hstate heq

/-- When a state is entered again, and no transition leads into one of its regions, what history governs there is
brought back. -/
theorem Lawful.returned (hs : m.isState s = true) (hr : m.owner? r = some s) {entry : List (Event μ δ)}
    (hl : m.Lawful (entry ++ .entered (.vertex s) :: (between ++ .left (.vertex s) :: past)))
    (hb : .entered (.vertex s) ∉ between) (he : ∀ event ∈ entry, event.isOffer = false)
    (hled : ¬ m.Led r (entry ++ .entered (.vertex s) :: (between ++ .left (.vertex s) :: past))) (hq : m.Governs r q) :
    m.lastIn? q (entry ++ .entered (.vertex s) :: (between ++ .left (.vertex s) :: past)) = m.lastIn? q past ∧
      ∀ w, m.isState w = true → m.parent? w = some q →
        IsIn w (entry ++ .entered (.vertex s) :: (between ++ .left (.vertex s) :: past)) →
        m.lastIn? q past = some w := by
  have haway := (Lawful.of_append hl).2
  have hexit : m.Exit s past := haway.law hs
  have hrecorded := hexit.whole r s hr hexit.known
  obtain ⟨_, hbeneath, hsame⟩ := Lawful.away h hs haway hb
  -- The induction is on what is told after `s` has been entered. Each entry into a region that history governs brings
  -- back what was recorded there when `s` was left.
  induction entry generalizing q with
  | nil =>
    have hnot : m.parent? s ≠ some q := fun hp => not_above_owner h hr ((above_iff h hp r).mpr hq.encloses)
    refine ⟨?_, fun w hw hp hin => ?_⟩
    · rw [List.nil_append, lastIn?_cons_of_none, hsame r (h.mem_regionsOf.mpr hr) q hq.encloses]
      exact if_neg fun hboth => hnot hboth.2
    · rcases isIn_cons hin with heq | hin
      · cases heq; exact absurd hp hnot
      · exact absurd hin (hbeneath w ⟨r, h.mem_regionsOf.mpr hr, (above_iff h hp r).mpr hq.encloses⟩ hw)
  | cons event entry ih =>
    have hoffer := he event (by simp)
    replace ih := fun {q} => @ih q hl.2 (fun e hmem => he e (List.mem_cons_of_mem event hmem))
      fun hr => hled (hr.cons hoffer)
    obtain ⟨hlast, hstands⟩ := ih hq
    by_cases hevent : ∃ v, m.entryInto? q event = some v
    · obtain ⟨v, hv⟩ := hevent
      obtain ⟨rfl, hstate, hp⟩ := entryInto?_eq_some.mp hv
      have hentry := hl.1 hstate
      have hback : m.lastIn? q past = some v := by
        cases hw : m.lastIn? q (entry ++ .entered (.vertex s) :: (between ++ .left (.vertex s) :: past)) with
        | some w =>
          rcases hentry.recalled q r w hp hq hw with rfl | hledNow
          · rw [← hlast, hw]
          · exact absurd (hledNow.cons rfl) hled
        | none =>
          -- The owner of `q` has been brought back, so that `q` was recorded when `s` was left.
          obtain ⟨o, ho⟩ := h.owner?_of_parent? hp
          have hin := hentry.around q o ho (above_parent h hp)
          have hsome : (m.lastIn? q past).isSome := by
            by_cases hne : r = q
            · rw [← hne]; exact hrecorded
            · have habove := above_owner ho hne hq.encloses
              rcases h.root_or_owner (vertex?_isSome_of_above habove) with rfl | ⟨p, _, hpo, _, _⟩
              · exact absurd habove (not_above_root h r)
              · have hgoverns := hq.around hne ((above_iff h hpo r).mp habove)
                have := (ih hgoverns).2 o (h.isState_of_owner? ho) hpo hin
                exact hexit.whole q o ho (mem_of_lastIn? this).1
          rw [← hlast, hw] at hsome; cases hsome
      refine ⟨by rw [List.cons_append, lastIn?_entered hstate hp, hback], fun w hw hpw hin => ?_⟩
      rcases isIn_cons hin with heq | hin
      · cases heq; exact hback
      · exact hstands w hw hpw hin
    · have hnone : m.entryInto? q event = none := by
        cases hv : m.entryInto? q event with
        | none => rfl
        | some v => exact absurd ⟨v, hv⟩ hevent
      refine ⟨by rw [List.cons_append, lastIn?_cons_of_none hnone, hlast], fun w hw hpw hin => ?_⟩
      refine hstands w hw hpw ((isIn_cons hin).resolve_left fun heq => hevent ⟨w, ?_⟩)
      exact entryInto?_eq_some.mpr ⟨heq, hw, hpw⟩

theorem Lawful.not_led (hl : m.Lawful events) (hr : m.owner? r = some s) (ha : m.Aimed s events) :
    ¬ m.Led r events := by
  have hs := h.isState_of_owner? hr
  rintro ⟨t', trigger', before', hmem', hleads⟩
  obtain ⟨t, trigger, before, record, hmem, hrec, htarget⟩ := ha
  -- Of the transition to `s` and the one into `r`, the one that has been fired later cannot have been lawful.
  induction events with
  | nil => cases hmem
  | cons event events ih =>
    cases he : event.isOffer with
    | true => simp [sinceOffer, he] at hmem
    | false =>
      rw [sinceOffer_cons he, List.mem_cons] at hmem hmem'
      obtain ⟨record', u, hrec', hu, hru, hway⟩ := hleads
      rcases hmem with rfl | hmem
      · rcases hmem' with heq | hmem'
        · cases heq
          rw [hrec] at hrec'; cases hrec'
          rw [htarget] at hu; cases hu
          exact not_above_owner h hr hru
        · cases hstate : m.isState record.source with
          | true => exact hl.1.first record hrec hstate _ _ _ hmem'
          | false =>
            -- The way to `s` leads from a region around it, where `u` is then the pseudo state itself.
            obtain ⟨q, hp⟩ := h.exists_parent? (h.source_isSome hrec) hstate
            obtain ⟨hinside, honly⟩ := hl.1.inside record q hrec hstate hp
            have hqr : m.Encloses q r := Or.inr ⟨s, hr, hinside s htarget⟩
            obtain rfl := honly u ⟨t', trigger', before', record', hmem', hrec', hu⟩
              (above_trans h hqr u (vertex?_isSome_of_above hru) hru)
            cases encloses_antisymm h hqr ((above_iff h hp r).mp hru)
            exact not_above_owner h hr (hinside s htarget)
      · rcases hmem' with rfl | hmem'
        · cases hstate : m.isState record'.source with
          | true => exact hl.1.first record' hrec' hstate _ _ _ hmem
          | false =>
            have hnot := hway.resolve_left (by simp [hstate])
            obtain ⟨q, hp⟩ := h.exists_parent? (h.source_isSome hrec') hstate
            obtain ⟨hinside, honly⟩ := hl.1.inside record' q hrec' hstate hp
            rw [above_iff h hp] at hnot
            have hqs : m.Above q s := above_owner hr (fun heq => hnot (Or.inl heq.symm))
              ((encloses_or h hru (hinside u hu)).resolve_left hnot)
            rw [honly s ⟨t, trigger, before, record, hmem, hrec, htarget⟩ hqs, hstate] at hs
            cases hs
        · exact ih hl.2 hmem' hmem

end

/-! ## Keeping a chronicle -/

/-- The events are lawful. States that have been entered lack nothing but the regions in `Q`, all states above which
stand; the regions in `F` have never been entered, and those in `D` have been led into. Only the states in `N` have been
aimed at. -/
structure Chronicle (m : Model μ δ) (Q F D : Set RegionId) (N : Set VertexId) (events : List (Event μ δ)) : Prop where
  lawful : m.Lawful events
  whole : ∀ q o, m.owner? q = some o → .entered (.vertex o) ∈ events → (m.lastIn? q events).isSome ∨ q ∈ Q
  around : ∀ q ∈ Q, ∀ p s, m.Encloses p q → m.owner? p = some s → IsIn s events
  fresh : ∀ q ∈ F, m.lastIn? q events = none
  led : ∀ r ∈ D, m.Led r events
  aimed : ∀ u, m.Aimed u events → u ∈ N

def Neutral (m : Model μ δ) : Event μ δ → Prop
  | .entered (.vertex v) | .left (.vertex v) => m.isState v = false
  | .offered .. | .fired .. => False
  | _ => True

theorem Neutral.ne (he : m.Neutral event) (hv : m.isState v = true) :
    event ≠ .entered (.vertex v) ∧ event ≠ .left (.vertex v) := by
  refine ⟨?_, ?_⟩ <;> rintro rfl <;> rw [Neutral, hv] at he <;> cases he

theorem Neutral.entryInto? (he : m.Neutral event) (q : RegionId) : m.entryInto? q event = none := by
  cases hv : m.entryInto? q event with
  | none => rfl
  | some v =>
    obtain ⟨heq, hstate, _⟩ := entryInto?_eq_some.mp hv
    exact absurd heq (he.ne hstate).1

theorem lastIn?_neutral {others : List (Event μ δ)} (ho : ∀ event ∈ others, m.Neutral event) :
    m.lastIn? q (others ++ events) = m.lastIn? q events := by
  induction others with
  | nil => rfl
  | cons event others ih =>
    rw [List.cons_append, lastIn?_cons_of_none ((ho event (by simp)).entryInto? q)]
    exact ih fun e hmem => ho e (List.mem_cons_of_mem event hmem)

theorem isIn_neutral {others : List (Event μ δ)} (ho : ∀ event ∈ others, m.Neutral event) (hs : m.isState s = true) :
    IsIn s (others ++ events) ↔ IsIn s events := by
  induction others with
  | nil => rfl
  | cons event others ih =>
    have hne := (ho event (by simp)).ne hs
    rw [← ih fun e hmem => ho e (List.mem_cons_of_mem event hmem)]
    exact ⟨fun hin => (isIn_cons hin).resolve_left hne.1, fun hin => hin.cons hne.2⟩

variable {Q F F' D D' : Set RegionId} {N N' : Set VertexId}

namespace Chronicle

theorem nil : m.Chronicle ∅ F ∅ ∅ [] where
  lawful := trivial
  whole _ _ _ hmem := by cases hmem
  around _ hq := by cases hq
  fresh _ _ := rfl
  led _ hr := by cases hr
  aimed _ ha := by obtain ⟨_, _, _, _, hmem, _⟩ := ha; cases hmem

theorem mono (hc : m.Chronicle Q F D N events) (hF : F' ⊆ F) (hD : D' ⊆ D) (hN : N ⊆ N') :
    m.Chronicle Q F' D' N' events :=
  { hc with
    fresh := fun q hq => hc.fresh q (hF hq)
    led := fun r hr => hc.led r (hD hr)
    aimed := fun u hu => hN (hc.aimed u hu) }

theorem unfired (hc : m.Chronicle Q F D N events)
    (hnone : ∀ t trigger before, .fired t trigger before ∉ sinceOffer events) : m.Chronicle Q F D ∅ events :=
  { hc with aimed := fun _ ⟨t, trigger, before, _, hmem, _⟩ => absurd hmem (hnone t trigger before) }

theorem offer (hc : m.Chronicle Q F D N events) (v : VertexId) (trigger : Trigger μ) :
    m.Chronicle Q F ∅ ∅ (.offered v trigger :: events) where
  lawful := ⟨trivial, hc.lawful⟩
  whole q o ho hmem := hc.whole q o ho (by simpa using hmem)
  around q hq p s hp hs := (hc.around q hq p s hp hs).cons (by simp)
  fresh q hq := hc.fresh q hq
  led _ hr := by cases hr
  aimed _ ha := by obtain ⟨_, _, _, _, hmem, _⟩ := ha; simp [sinceOffer, Event.isOffer] at hmem

theorem cons {Q' : Set RegionId} (hc : m.Chronicle Q F D N events) (hlaw : m.Law event events)
    (he : event.isOffer = false)
    (hwhole : ∀ q o, m.owner? q = some o → event = .entered (.vertex o) ∨ q ∈ Q →
      (m.lastIn? q (event :: events)).isSome ∨ q ∈ Q')
    (haround : ∀ q ∈ Q', ∀ p s, m.Encloses p q → m.owner? p = some s → IsIn s (event :: events))
    (hfresh : ∀ q ∈ F', q ∈ F ∧ m.entryInto? q event = none) (hled : ∀ r ∈ D', r ∈ D ∨ m.Led r (event :: events))
    (hN : N ⊆ N') (haimed : ∀ t trigger before record u, event = .fired t trigger before →
      m.transition? t = some record → record.target = some u → u ∈ N') :
    m.Chronicle Q' F' D' N' (event :: events) where
  lawful := ⟨hlaw, hc.lawful⟩
  whole q o ho hmem := by
    rcases List.mem_cons.mp hmem with heq | hmem
    · exact hwhole q o ho (Or.inl heq.symm)
    · exact (hc.whole q o ho hmem).elim (fun hq => Or.inl (lastIn?_isSome_cons hq)) fun hq => hwhole q o ho (Or.inr hq)
  around := haround
  fresh q hq := (lastIn?_cons_of_none (hfresh q hq).2).trans (hc.fresh q (hfresh q hq).1)
  led r hr := (hled r hr).elim (fun hr => (hc.led r hr).cons he) id
  aimed u ha := by
    obtain ⟨t, trigger, before, record, hmem, hrec, hu⟩ := ha
    rw [sinceOffer_cons he, List.mem_cons] at hmem
    rcases hmem with heq | hmem
    · exact haimed t trigger before record u heq.symm hrec hu
    · exact hN (hc.aimed u ⟨t, trigger, before, record, hmem, hrec, hu⟩)

section
variable (h : m.Arena)
include h

theorem neutral (hc : m.Chronicle Q F D N events) (he : m.Neutral event) : m.Chronicle Q F D N (event :: events) := by
  refine hc.cons ?_ ?_ (fun q o ho hq => ?_) (fun q hq p s hp hs => ?_) (fun q hq => ⟨hq, he.entryInto? q⟩)
    (fun r hr => Or.inl hr) (fun _ hu => hu) ?_
  · cases event with
    | entered element => cases element with
      | vertex v => exact fun hv => absurd rfl (he.ne hv).1
      | region r => trivial
    | left element => cases element with
      | vertex v => exact fun hv => absurd rfl (he.ne hv).2
      | region r => trivial
    | fired => cases he
    | _ => trivial
  · cases event <;> first | rfl | cases he
  · exact Or.inr (hq.resolve_left (he.ne (h.isState_of_owner? ho)).1)
  · exact (hc.around q hq p s hp hs).cons (he.ne (h.isState_of_owner? hs)).2
  · rintro t trigger before _ _ rfl; cases he

theorem neutrals (hc : m.Chronicle Q F D N events) {others : List (Event μ δ)}
    (ho : ∀ event ∈ others, m.Neutral event) : m.Chronicle Q F D N (others ++ events) := by
  induction others with
  | nil => exact hc
  | cons event others ih =>
    exact (ih fun e hmem => ho e (List.mem_cons_of_mem event hmem)).neutral h (ho event (by simp))

theorem enter (hc : m.Chronicle (Q ∪ {p | m.parent? v = some p}) F D N events) (hv : m.isState v = true)
    (hback : ∀ q r w, m.parent? v = some q → m.Governs r q → m.lastIn? q events = some w → v = w ∨ r ∈ D)
    (hF : ∀ q ∈ F', q ∈ F ∧ m.parent? v ≠ some q) :
    m.Chronicle (Q ∪ {q | q ∈ m.regionsOf v}) F' D N (.entered (.vertex v) :: events) := by
  have habove : ∀ q s, m.owner? q = some s → m.Above q v → IsIn s events := by
    intro q s hs ha
    rcases h.root_or_owner (vertex?_isSome_of_isState hv) with rfl | ⟨p, _, hp, _, _⟩
    · exact absurd ha (not_above_root h q)
    · exact hc.around p (Or.inr hp) q s ((above_iff h hp q).mp ha) hs
  refine hc.cons (fun _ => ⟨habove, fun q r w hp hr hw => (hback q r w hp hr hw).imp id (hc.led r)⟩) rfl
    (fun q o ho hq => ?_) (fun q hq p s hp hs => ?_) (fun q hq => ⟨(hF q hq).1, ?_⟩) (fun r hr => Or.inl hr)
    (fun _ hu => hu) (by simp)
  · rcases hq with heq | hq | hq
    · cases heq; exact Or.inr (Or.inr (h.mem_regionsOf.mpr ho))
    · exact Or.inr (Or.inl hq)
    · exact Or.inl (by rw [lastIn?_entered hv hq]; rfl)
  · rcases hq with hq | hq
    · exact (hc.around q (Or.inl hq) p s hp hs).cons (by simp)
    · by_cases heq : p = q
      · rw [heq, h.mem_regionsOf.mp hq] at hs
        cases hs; exact Or.inl rfl
      · exact (habove p s hs (above_owner (h.mem_regionsOf.mp hq) heq hp)).cons (by simp)
  · exact if_neg fun hboth => (hF q hq).2 hboth.2

omit h in
theorem leave (hc : m.Chronicle ∅ F D N events) (hknown : .entered (.vertex v) ∈ events)
    (hbeneath : ∀ w ∈ m.Beneath v, m.isState w = true → ¬ IsIn w events)
    (hactive : ∀ q w, (q, w) ∈ m.path v → m.lastIn? q events = some w) :
    m.Chronicle ∅ F D N (.left (.vertex v) :: events) := by
  refine hc.cons (fun _ => ⟨hknown, hbeneath, hactive, fun q o ho hmem => ?_⟩) rfl (fun q o _ hq => ?_)
    (fun q hq => hq.elim) (fun q hq => ⟨hq, rfl⟩) (fun r hr => Or.inl hr) (fun _ hu => hu) (by simp)
  · exact (hc.whole q o ho hmem).resolve_right id
  · exact (hq.resolve_left (by simp)).elim

omit h in
theorem fire (hc : m.Chronicle Q F D N events) {t : TransitionId} {trigger : Trigger μ} {before : Instance δ}
    (hfiring : m.Firing t before events) (hN : N ⊆ N')
    (haimed : ∀ record u, m.transition? t = some record → record.target = some u → u ∈ N') :
    m.Chronicle Q F (D ∪ {r | m.LeadsInto r t}) N' (.fired t trigger before :: events) := by
  refine hc.cons hfiring rfl (fun q o _ hq => Or.inr (hq.resolve_left (by simp)))
    (fun q hq p s hp hs => (hc.around q hq p s hp hs).cons (by simp)) (fun q hq => ⟨hq, rfl⟩) (fun r hr => ?_) hN ?_
  · exact hr.imp id fun hr => ⟨t, trigger, before, by simp [sinceOffer, Event.isOffer], hr⟩
  · rintro _ _ _ record u heq hrec; cases heq; exact haimed record u hrec

theorem unentered (hc : m.Chronicle Q F D N events) (hq : m.lastIn? q events = none) :
    m.Chronicle Q (F ∪ {p | m.Encloses q p}) D N events := by
  refine { hc with fresh := fun p hp => hp.elim (hc.fresh p) fun hqp => ?_ }
  cases hw : m.lastIn? p events with
  | none => rfl
  | some w =>
    exfalso
    obtain ⟨hmem, hstate, hpw⟩ := mem_of_lastIn? hw
    obtain ⟨⟨q', x⟩, hpath, rfl⟩ := List.mem_map.mp ((above_iff h hpw q).mpr hqp)
    obtain ⟨hpx, hway⟩ := of_mem_path h w (vertex?_isSome_of_isState hstate) hpath
    have hx : .entered (.vertex x) ∈ events ∧ m.isState x = true := by
      rcases hway with rfl | ⟨r, hr, hrw⟩
      · exact ⟨hmem, hstate⟩
      · obtain ⟨later, earlier, rfl⟩ := List.append_of_mem hmem
        have hentry : m.Entry w earlier := hc.lawful.law hstate
        have hin := hentry.around r x hr hrw
        exact ⟨List.mem_append_right _ (List.mem_cons_of_mem _ hin.mem), h.isState_of_owner? hr⟩
    have := lastIn?_isSome_of_mem hx.1 hx.2 hpx
    rw [hq] at this; cases this

end

end Chronicle

end Model

end Statechart
