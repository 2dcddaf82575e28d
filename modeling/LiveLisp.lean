import LiveLisp.Text.Width
import LiveLisp.Code.Listing
import LiveLisp.Code.Site
import LiveLisp.Json.Reader
import LiveLisp.Host.World
import LiveLisp.Machine.Copy
import LiveLisp.Main
import LiveLisp.Proofs.Machine.Accounting
import LiveLisp.Proofs.Session.Consistent
import LiveLisp.Proofs.Session.Order
import LiveLisp.Proofs.Tree.Faithful
import LiveLisp.Proofs.Host.Repeatable
import LiveLisp.Proofs.Machine.Reply
import LiveLisp.Proofs.Session.Stepping
import LiveLisp.Proofs.Session.Again
import LiveLisp.Proofs.Session.Tape
import LiveLisp.Proofs.Session.TimeTravel
import LiveLisp.Proofs.Session.Present
import LiveLisp.Proofs.Session.RewindPoint
import LiveLisp.Proofs.Code.Recompiled
import LiveLisp.Proofs.Host.Parametric
import LiveLisp.Proofs.Ideal.Twin
import LiveLisp.Proofs.Code.Placement
import LiveLisp.Proofs.Session.Revisions
import LiveLisp.Proofs.Session.HotReload
import LiveLisp.Proofs.Session.Harmless
import LiveLisp.Proofs.Session.Furthest
import LiveLisp.Proofs.Machine.TailCalls
import LiveLisp.Proofs.Scope.Sweeping
import LiveLisp.Proofs.Session.Unchanged
import LiveLisp.Proofs.Text.Lossless
import LiveLisp.Proofs.Tree.Grammar
import LiveLisp.Proofs.Session.Sticking
import LiveLisp.Proofs.Machine.Atomic
import LiveLisp.Proofs.Tree.Discovery
import LiveLisp.Proofs.Code.Sites
import LiveLisp.Proofs.Session.Finished
import LiveLisp.Proofs.Session.Keyframes
import LiveLisp.Proofs.Session.Budgets
import LiveLisp.Proofs.Machine.Frames
import LiveLisp.Proofs.Tree.Attribution
import LiveLisp.Proofs.Scope.Arena
import LiveLisp.Proofs.Machine.Garbage
import LiveLisp.Proofs.Tree.Printed
import LiveLisp.Proofs.Tree.Laminar
import LiveLisp.Proofs.Scope.Failure
import LiveLisp.Proofs.Scope.Confluence
import LiveLisp.Proofs.Source.LineIndex
