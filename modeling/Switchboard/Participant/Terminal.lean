import Switchboard.Participant.Operation

/-! # Participants at the end of a stream

A terminal is a station that hears the broker through a stream of bytes.  It hears the messages of
the frames that can be read, in order, and with the first one that cannot be read, or when the
stream ends, its link is lost. -/

namespace Switchboard

/-- A participant with the broker's stream. -/
structure Terminal (η : Type) where
  station : Station η := {}
  reader : Reader := {}
deriving Inhabited

namespace Terminal

variable {η : Type}

/-- Hears messages in a row. -/
def hearAll [DecidableEq η] (s : Station η) : List Message → Station η × List (Effect η)
  | [] => (s, [])
  | m :: ms =>
    let (s, es) := s.hear m
    let (s, es') := hearAll s ms
    (s, es ++ es')

/-- Bytes arrive. -/
def receive [DecidableEq η] (t : Terminal η) (bytes : Bytes) : Terminal η × List (Effect η) :=
  let (reader, ms) := t.reader.feed bytes
  let (s, es) := hearAll t.station ms
  let (s, es') := if reader.broken then s.hangUp else (s, [])
  (⟨s, reader⟩, es ++ es')

/-- The broker's stream ends. -/
def hangUp [DecidableEq η] (t : Terminal η) : Terminal η × List (Effect η) :=
  let (station, es) := t.station.hangUp
  ({ t with station }, es)

/-- The broker does not take any more what is written. -/
def deafen [DecidableEq η] (t : Terminal η) : Terminal η :=
  { t with station := t.station.deafen }

/-- A caller or a handler does something. -/
def operate (t : Terminal η) (fresh : String) (o : Operation η) : Terminal η × Reply :=
  let (station, r) := t.station.operate fresh o
  ({ t with station }, r)

/-- The station's link obeys all commands. -/
def obeyAll [DecidableEq η] (t : Terminal η) : Terminal η × List (Effect η) :=
  let (station, es) := t.station.obeyAll
  ({ t with station }, es)

end Terminal

end Switchboard
