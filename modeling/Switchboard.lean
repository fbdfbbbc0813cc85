import Switchboard.Main
import Switchboard.Network.Script
import Switchboard.Participant.Terminal
import Switchboard.Roster
import Switchboard.Shape
import Switchboard.Stream
import Switchboard.Proofs.Exchange.Answers
import Switchboard.Proofs.Exchange.Fallback
import Switchboard.Proofs.Frame.Boundaries
import Switchboard.Proofs.Decimal.Shortest
import Switchboard.Proofs.Json.Literal
import Switchboard.Proofs.ContextId
import Switchboard.Proofs.Json.RoundTrip
import Switchboard.Proofs.Message.Transmission
import Switchboard.Proofs.Message.Codec
import Switchboard.Proofs.Network.Custody
import Switchboard.Proofs.Network.History
import Switchboard.Proofs.Network.Order
import Switchboard.Proofs.Network.Waiting
import Switchboard.Proofs.Network.Account
import Switchboard.Proofs.Network.Arrival
import Switchboard.Proofs.Network.Delivery
import Switchboard.Proofs.Exchange.Rights
import Switchboard.Proofs.Exchange.Interference
import Switchboard.Proofs.Exchange.Room
import Switchboard.Proofs.Exchange.Departure
import Switchboard.Proofs.Directory.History
import Switchboard.Proofs.Network.Confirmation
import Switchboard.Proofs.Directory.Registration
import Switchboard.Proofs.Participant.Arrivals
import Switchboard.Proofs.Participant.Course
import Switchboard.Proofs.Participant.OutboundCall
import Switchboard.Proofs.Participant.Replies
import Switchboard.Proofs.Participant.Loss
import Switchboard.Proofs.Network.Nesting
import Switchboard.Proofs.Exchange.Routing
import Switchboard.Proofs.Exchange.VisitOrder
import Switchboard.Proofs.Session.Terminal
import Switchboard.Proofs.Participant.Enlisting
import Switchboard.Proofs.Participant.Refusal
import Switchboard.Proofs.Session.Admission
import Switchboard.Proofs.Message.Layout
