import Switchboard.Directory
import Switchboard.Failure
import Switchboard.Message

/-! # Rosters

A roster holds the handlers of one participant.  The broker names a handler by its id, so handlers
are found by id; the directory of ids by name serves to refuse the same handler a second time under
one name.  Ids count from one.  What has been given out is counted without an end, like all counts
here, but an id has the sixty-four bits that it has in messages. -/

namespace Switchboard

/-- The handlers of one participant. -/
structure Roster (η : Type) where
  directory : Directory HandlerId := {}
  handlers : Keyed HandlerId η := ∅
  /-- The number of ids given out so far. -/
  issued : Nat := 0
deriving Inhabited

namespace Roster

variable {η : Type}

instance [DecidableEq η] : DecidableEq (Roster η) := fun r s =>
  decidable_of_iff (r.directory = s.directory ∧ r.handlers = s.handlers ∧ r.issued = s.issued)
    ⟨fun h => by cases r; cases s; simpa using h, by rintro rfl; exact ⟨rfl, rfl, rfl⟩⟩

/-- Whether a handler is registered under a name. -/
def serves [DecidableEq η] (r : Roster η) (name : String) (handler : η) : Bool :=
  r.directory.any name fun id => r.handlers.get? id = some handler

/-- The next id to be given out. -/
def nextId (r : Roster η) : HandlerId := .ofNat (r.issued + 1)

/-- Registers a handler under a name, unless it is so already, and returns its id. -/
def register [DecidableEq η] (r : Roster η) (name : String) (priority : UInt16) (handler : η) :
    Except Failure (HandlerId × Roster η) :=
  if r.serves name handler then .error .done
  else
    .ok (r.nextId, {
      directory := r.directory.insert name priority r.nextId
      handlers := r.handlers.insert r.nextId handler
      issued := r.issued + 1 })

/-- The handler of an id. -/
def get? (r : Roster η) (id : HandlerId) : Option η := r.handlers.get? id

/-- Removes the handler of an id. -/
def remove (r : Roster η) (id : HandlerId) : Roster η :=
  { r with
    directory := r.directory.retain fun _ other => other ≠ id
    handlers := r.handlers.erase id }

/-- Removes the handler of an id and returns it, if there is one. -/
def take (r : Roster η) (id : HandlerId) : Option η × Roster η := (r.get? id, r.remove id)

/-- Removes all handlers. -/
def clear (r : Roster η) : Roster η :=
  { r with directory := r.directory.clear, handlers := ∅ }

/-- The number of registrations. -/
def size (r : Roster η) : Nat := r.handlers.size

end Roster

end Switchboard
