import Statechart.Proofs.JsonTexts
import Statechart.Proofs.Texts
import Statechart.Snapshot.Json

/-!
# Snapshots are read back from JSON

The value of a snapshot gives the snapshot back, and so does its text, while its states nest no deeper than a reader
allows. Every level of states takes four levels of objects and arrays.
-/

namespace Statechart

/-! ## Nesting -/

mutual

/-- How many levels of states there are beneath a state. -/
def StateNode.nesting : StateNode → Nat
  | .mk _ regions => regionsNesting regions

def RegionNode.nesting : RegionNode → Nat
  | .mk _ _ states => statesNesting states

def statesNesting : List StateNode → Nat
  | [] => 0
  | node :: rest => max (node.nesting + 1) (statesNesting rest)

def regionsNesting : List RegionNode → Nat
  | [] => 0
  | node :: rest => max node.nesting (regionsNesting rest)

end

namespace Json

/-! ## Fields -/

theorem membersNamed_eq_nil {members : List (String × Json)} {name : String} (h : name ∉ members.map Prod.fst) :
    membersNamed name (members.map fun (name, value) => (some name, value)) = [] := by
  refine List.filterMap_eq_nil_iff.mpr fun member hmember => ?_
  obtain ⟨⟨other, value⟩, hother, rfl⟩ := List.mem_map.mp hmember
  exact if_neg fun heq => h (List.mem_map.mpr ⟨_, hother, Option.some.inj heq⟩)

theorem membersNamed_eq_singleton {members : List (String × Json)} (hnodup : (members.map Prod.fst).Nodup)
    {name : String} {value : Json} (h : (name, value) ∈ members) :
    membersNamed name (members.map fun (name, value) => (some name, value)) = [value] := by
  induction members with
  | nil => cases h
  | cons member members ih =>
    obtain ⟨hfresh, hnodup⟩ := List.nodup_cons.mp hnodup
    rcases List.mem_cons.mp h with rfl | h
    · have hrest := membersNamed_eq_nil hfresh
      simpa [membersNamed] using hrest
    · have hne : member.1 ≠ name := fun heq => hfresh (heq ▸ List.mem_map_of_mem h)
      have hrest := ih hnodup h
      simpa [membersNamed, hne] using hrest

theorem mapM_eq_some_map {α β γ : Type} {f : β → Option γ} {g : α → β} {k : α → γ} :
    ∀ {l : List α}, (∀ x ∈ l, f (g x) = some (k x)) → (l.map g).mapM f = some (l.map k)
  | [], _ => rfl
  | x :: l, h => by
    have hl := mapM_eq_some_map fun y hy => h y (List.mem_cons_of_mem x hy)
    simp [List.mapM_cons, h x List.mem_cons_self, hl]

theorem fields?_ofMembers {members : List (String × Json)} (hnodup : (members.map Prod.fst).Nodup) :
    (ofMembers members).fields? (members.map Prod.fst) = some (members.map (some ·.2)) := by
  have hsound : (members.map fun (name, value) => ((some name : Content), value)).all (·.1.isSome) = true := by simp
  rw [ofMembers, fields?, if_pos hsound]
  exact mapM_eq_some_map fun member hmember => by rw [field?, membersNamed_eq_singleton hnodup hmember]

theorem textOption?_ofOption (s : Option String) : (ofOption s).textOption? = some s := by
  cases s <;> rfl

/-! ## Whole values -/

theorem isWhole_ofOption (s : Option String) : (ofOption s).IsWhole := by
  cases s <;> trivial

end Json

open Json

mutual

theorem StateNode.isWhole_toJson : ∀ node : StateNode, node.toJson.IsWhole
  | .mk _ regions => ⟨trivial, areWhole_regionNodes regions, trivial⟩

theorem RegionNode.isWhole_toJson : ∀ node : RegionNode, node.toJson.IsWhole
  | .mk _ current states => ⟨trivial, isWhole_ofOption current, areWhole_stateNodes states, trivial⟩

theorem areWhole_stateNodes : ∀ nodes : List StateNode, AreWhole (stateNodesToJson nodes)
  | [] => trivial
  | node :: rest => ⟨node.isWhole_toJson, areWhole_stateNodes rest⟩

theorem areWhole_regionNodes : ∀ nodes : List RegionNode, AreWhole (regionNodesToJson nodes)
  | [] => trivial
  | node :: rest => ⟨node.isWhole_toJson, areWhole_regionNodes rest⟩

end

theorem Snapshot.isWhole_toJsonValue (s : Snapshot) : s.toJsonValue.IsWhole :=
  ⟨trivial, trivial, trivial, trivial, trivial, s.root.isWhole_toJson, trivial⟩

/-! ## Nodes -/

mutual

theorem StateNode.ofJson?_toJson : ∀ (node : StateNode) (depth : Nat), 4 * node.nesting + 4 ≤ depth →
    StateNode.ofJson? depth node.toJson = some node
  | .mk name regions, depth + 2, h => by
    have hfields : (StateNode.mk name regions).toJson.fields? ["name", "regions"] =
      some [some (ofString name), some (.array (regionNodesToJson regions))] := fields?_ofMembers (by simp)
    have hregions := mapM_regionNodesToJson regions depth (by rw [StateNode.nesting] at h; omega)
    simp [StateNode.ofJson?, hfields, ofString, string?, items?, hregions]

theorem RegionNode.ofJson?_toJson : ∀ (node : RegionNode) (depth : Nat), 4 * node.nesting + 2 ≤ depth →
    RegionNode.ofJson? depth node.toJson = some node
  | .mk name current states, depth + 2, h => by
    have hfields : (RegionNode.mk name current states).toJson.fields? ["name", "current", "states"] =
        some [some (ofString name), some (ofOption current), some (.array (stateNodesToJson states))] :=
      fields?_ofMembers (by simp)
    have hstates := mapM_stateNodesToJson states depth (by rw [RegionNode.nesting] at h; omega)
    simp [RegionNode.ofJson?, hfields, ofString, string?, items?, textOption?_ofOption, hstates]

theorem mapM_stateNodesToJson : ∀ (nodes : List StateNode) (depth : Nat), 4 * statesNesting nodes ≤ depth →
    (stateNodesToJson nodes).mapM (StateNode.ofJson? depth) = some nodes
  | [], _, _ => rfl
  | node :: rest, depth, h => by
    rw [statesNesting] at h
    have hnode := node.ofJson?_toJson depth (by omega)
    have hrest := mapM_stateNodesToJson rest depth (by omega)
    simp [stateNodesToJson, List.mapM_cons, hnode, hrest]

theorem mapM_regionNodesToJson : ∀ (nodes : List RegionNode) (depth : Nat), 4 * regionsNesting nodes + 2 ≤ depth →
    (regionNodesToJson nodes).mapM (RegionNode.ofJson? depth) = some nodes
  | [], _, _ => rfl
  | node :: rest, depth, h => by
    rw [regionsNesting] at h
    have hnode := node.ofJson?_toJson depth (by omega)
    have hrest := mapM_regionNodesToJson rest depth (by omega)
    simp [regionNodesToJson, List.mapM_cons, hnode, hrest]

end

/-! ## Snapshots -/

namespace Snapshot

theorem ofJsonValue?_toJsonValue {s : Snapshot} (h : s.root.nesting ≤ 30) :
    ofJsonValue? s.toJsonValue = some s := by
  have hfields : s.toJsonValue.fields? ["version", "id", "timestamp", "machine", "terminated", "root"] =
      some [some (.natural s.version.toNat), some (ofString s.id.text), some (ofString s.timestamp.text),
        some (ofString s.machine), some (.bool s.terminated), some s.root.toJson] := fields?_ofMembers (by simp)
  have hversion : version? (.natural s.version.toNat) = some s.version := by
    simp [version?, nat?, show s.version.toNat < 4294967296 from s.version.toNat_lt]
  have hroot := s.root.ofJson?_toJson (maxDepth - 1) (by rw [maxDepth]; omega)
  simp [ofJsonValue?, hfields, hversion, ofString, string?, bool?, Uuid.parse?_text, Instant.parse?_text, hroot]

/-- A snapshot is read back from its text, while its states nest no deeper than thirty levels beneath the root; one of
another version is recognised as such. -/
theorem ofJson_toJson (s : Snapshot) (h : s.root.nesting ≤ 30) :
    (s.version = currentVersion → ofJson s.toJson = .ok s) ∧
      (s.version ≠ currentVersion → ofJson s.toJson = .error (.unsupportedVersion s.version currentVersion)) := by
  have hread : ofJson s.toJson = s.checkVersion := by
    rw [ofJson, toJson, parse?_render s.isWhole_toJsonValue, Option.bind_some, ofJsonValue?_toJsonValue h]
  rw [hread, checkVersion]
  exact ⟨fun hv => if_pos hv, fun hv => if_neg hv⟩

/-- Names with quotes, backslashes, control characters and letters beyond the first plane, in states of three levels. -/
def unusual : Snapshot where
  version := currentVersion
  id := ⟨[0x6b, 0xa7, 0xb8, 0x10, 0x9d, 0xad, 0x11, 0xd1, 0x80, 0xb4, 0x00, 0xc0, 0x4f, 0xd4, 0x30, 0xc8], by decide⟩
  timestamp := ⟨⟨1999, 12, 31⟩, ⟨0, 0, 0, 1⟩, by decide, by decide⟩
  machine := "the \"machine\""
  terminated := true
  root := .mk "the \"machine\""
    [.mk "a\\b" (some "\x00\t𝄞") [.mk "\x00\t𝄞" [.mk "" none [.mk "/" []], .mk "é" none []]]]

theorem ofJson_toJson_unusual :
    ofJson unusual.toJson = .ok unusual ∧
      ofJson { unusual with version := 0 }.toJson = .error (.unsupportedVersion 0 currentVersion) :=
  ⟨(ofJson_toJson unusual (by decide)).1 rfl,
    (ofJson_toJson { unusual with version := 0 } (by decide)).2 (by decide)⟩

end Snapshot

end Statechart
