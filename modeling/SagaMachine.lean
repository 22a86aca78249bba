import SagaMachine.Json.Text
import SagaMachine.Scenario
import SagaMachine.Session
import SagaMachine.Proofs.ChannelLaws
import SagaMachine.Proofs.Quiescence
import SagaMachine.Proofs.Books
import SagaMachine.Proofs.Encounters
import SagaMachine.Proofs.Errands
import SagaMachine.Proofs.Reentry
import SagaMachine.Proofs.Lifetimes
import SagaMachine.Proofs.Pairing
import SagaMachine.Proofs.Debts
import SagaMachine.Proofs.Stays
import SagaMachine.Proofs.Sleepers
import SagaMachine.Proofs.Puts
import SagaMachine.Proofs.DepthFirst
import SagaMachine.Proofs.Felling
import SagaMachine.Proofs.Kinship
import SagaMachine.Proofs.Teardowns
import SagaMachine.Proofs.Cancellations
import SagaMachine.Proofs.Clearances
import SagaMachine.Proofs.Failures
import SagaMachine.Proofs.Registrations
import SagaMachine.Proofs.Withdrawals
import SagaMachine.Proofs.Releases
import SagaMachine.Proofs.Subscriptions
import SagaMachine.Proofs.Wirings
import SagaMachine.Proofs.Deliveries
import SagaMachine.Proofs.Consistency
import SagaMachine.Proofs.Aftermath
import SagaMachine.Proofs.Collapse
import SagaMachine.Proofs.Turnover
import SagaMachine.Proofs.Awaiting
import SagaMachine.Proofs.Sequels
import SagaMachine.Proofs.Completion
import SagaMachine.Proofs.Monitors
import SagaMachine.Proofs.Handovers
import SagaMachine.Proofs.Custody
import SagaMachine.Proofs.Guises
import SagaMachine.Proofs.Observers
import SagaMachine.Proofs.Sources
import SagaMachine.Proofs.HostStates
import SagaMachine.Proofs.Handles
import SagaMachine.Proofs.Provenance
import SagaMachine.Proofs.Joins
import SagaMachine.Proofs.Registry
import SagaMachine.Proofs.Sprouts
import SagaMachine.Proofs.Undoing
import SagaMachine.Proofs.BufferLaws
import SagaMachine.Proofs.Broadcasts
import SagaMachine.Proofs.Holdings
import SagaMachine.Proofs.Watersheds
import SagaMachine.Proofs.Bodies
import SagaMachine.Proofs.Emissions
import SagaMachine.Proofs.ActionForms
import SagaMachine.Proofs.DeferredLaws
import SagaMachine.Proofs.SettingsTexts
import SagaMachine.Proofs.Mailboxes
import SagaMachine.Proofs.OneEffect
import SagaMachine.Proofs.Attendance
import SagaMachine.Proofs.Successions
import SagaMachine.Proofs.PostOrder
import SagaMachine.Proofs.WaitForest
import SagaMachine.Proofs.Termination
import SagaMachine.Proofs.Balance
import SagaMachine.Proofs.Combinators
import SagaMachine.Proofs.Rejections
