import Bookable.Main
import Bookable.Session
import Bookable.Store.Column
import Bookable.Proofs.Store.SingleBooking
import Bookable.Proofs.Store.Publication
import Bookable.Proofs.Store.History
import Bookable.Proofs.Hall.Race
import Bookable.Proofs.Slots.Lookup
import Bookable.Proofs.Time.OfDay
import Bookable.Proofs.Hall.Listing
import Bookable.Proofs.Hall.Updates
import Bookable.Proofs.Hall.Overtaken
import Bookable.Proofs.Hall.Progress
import Bookable.Proofs.Hall.Origin
import Bookable.Proofs.Store.View
import Bookable.Proofs.Hall.Solo
import Bookable.Proofs.Store.Table
import Bookable.Proofs.Suits
import Bookable.Proofs.Interchange
import Bookable.Proofs.Traceless
import Bookable.Proofs.Time.Calendar
import Bookable.Proofs.Store.Locks
import Bookable.Proofs.Hall.Cancellation
import Bookable.Proofs.Slots.Narrowed
import Bookable.Proofs.Hall.Windows
import Bookable.Proofs.Hall.Hidden
import Bookable.Proofs.Hall.Disjoint
import Bookable.Proofs.Store.Mirror
import Bookable.Proofs.Hall.Accounts
import Bookable.Proofs.Hall.Owners
import Bookable.Proofs.Hall.Undisturbed
import Bookable.Proofs.Slots.Taken
import Bookable.Proofs.Store.Contention
import Bookable.Proofs.Slots.Causes
import Bookable.Proofs.Conflicts
import Bookable.Proofs.Hall.Patches
import Bookable.Proofs.Slots.Weekly
import Bookable.Proofs.Hall.Agenda
import Bookable.Proofs.Hall.Batches
import Bookable.Proofs.RuleFile
import Bookable.Proofs.Time.Grammar
import Bookable.Proofs.Store.Bound
import Bookable.Proofs.Printed
import Bookable.Proofs.Time.Readings
import Bookable.Proofs.Unread
