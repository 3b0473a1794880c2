import Resumable.Lowering.Error

/-!
# Tags

* each tag belongs to one machine and is given a state of that machine once;
* tag 0 is there from the start: the end of the root machine.
-/

namespace Resumable

/-- What is known of a tag. -/
structure TagSlot where
  /-- the machine that it belongs to -/
  owner : MachineId
  /-- the state that it stands for, once that is known -/
  target : Option StateId
  deriving DecidableEq, Inhabited

/-- All tags of a procedure. -/
structure TagTable where
  /-- the tags, each at its index -/
  slots : Array TagSlot
  deriving Inhabited

namespace TagTable

/-- The table with the tag of the end only. -/
def initial : TagTable := ⟨#[⟨.root, some .finished⟩]⟩

/-- The number of tags. -/
def size (t : TagTable) : Nat := t.slots.size

/-- A new tag for a state of `owner`. -/
def fresh (t : TagTable) (owner : MachineId) : Tag × TagTable :=
  (⟨t.size⟩, ⟨t.slots.push ⟨owner, none⟩⟩)

/-- Gives a tag its state. -/
def resolve (t : TagTable) (tag : Tag) (state : StateId) : Except LoweringError TagTable :=
  match t.slots[tag.index]? with
  | none => .error (.defect (.missingTag tag))
  | some ⟨_, some first⟩ => .error (.defect (.tagResolvedTwice tag first state))
  | some ⟨owner, none⟩ => .ok ⟨t.slots.setIfInBounds tag.index ⟨owner, some state⟩⟩

/-- The state that a tag stands for. -/
def target? (t : TagTable) (tag : Tag) : Option StateId :=
  t.slots[tag.index]?.bind TagSlot.target

/-- The machine that a tag belongs to; an unknown tag counts to the root. -/
def owner (t : TagTable) (tag : Tag) : MachineId :=
  (t.slots[tag.index]?.map TagSlot.owner).getD .root

/-- Refuses a table with a tag that stands for no state. -/
def verify (t : TagTable) : Except LoweringError Unit :=
  match t.slots.toList.findIdx? fun slot => slot.target.isNone with
  | some i => .error (.unresolvedTag ⟨i⟩)
  | none => .ok ()

end TagTable

end Resumable
