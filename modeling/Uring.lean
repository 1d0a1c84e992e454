import Uring.Abi
import Uring.Errno
import Uring.Tag
import Uring.Error
import Uring.Timespec
import Uring.Inet
import Uring.Cells
import Uring.Span
import Uring.RingSize
import Uring.Completion.Entry
import Uring.Completion.Queue
import Uring.Completion.Fifo
import Uring.Submission.Entry
import Uring.Submission.Queue
import Uring.Operation
import Uring.Command
import Uring.Kernel.Call
import Uring.Kernel.Basic
import Uring.Mapping
import Uring.Log
import Uring.Ring.Basic
import Uring.Ring.Lifetime
import Uring.Ring.Layout
import Uring.Ring.Slot
import Uring.Ring.Submit
import Uring.Ring.Harvest
import Uring.Ring.Probe
import Uring.Ring.Step
import Uring.Ring.Session
import Uring.Socket
import Uring.Proofs.ResultWord
import Uring.Proofs.ErrorNumbers
import Uring.Proofs.Operation.Validity
import Uring.Proofs.Operation.Encoding
import Uring.Proofs.Submission.Queue
import Uring.Proofs.Submission.Room
import Uring.Proofs.Completion.Queue
import Uring.Proofs.Kernel.Turn
import Uring.Proofs.Kernel.Backlog
import Uring.Proofs.Kernel.Enter
import Uring.Proofs.Ring.SetUp
import Uring.Proofs.Ring.Slot
import Uring.Proofs.Ring.Written
import Uring.Proofs.Ring.LastWrite
import Uring.Proofs.Ring.Harvest
import Uring.Proofs.Ring.Submit
import Uring.Proofs.Ring.Effect
import Uring.Proofs.Ring.SubmissionOrder
import Uring.Proofs.Ring.Lifelong
import Uring.Proofs.Ring.Capacity
import Uring.Proofs.Ring.Reported
import Uring.Proofs.Ring.Untaken
import Uring.Proofs.Ring.CompletionOrder
import Uring.Proofs.Ring.Drain
import Uring.Proofs.Ring.Copy
import Uring.Proofs.Ring.Bounded
import Uring.Proofs.Ring.Batch
import Uring.Proofs.Ring.Tags
import Uring.Proofs.Completion.Fifo
import Uring.Proofs.Completion.OneByOne
import Uring.Proofs.Ring.Release
import Uring.Proofs.Ring.Refusal
import Uring.Proofs.Kernel.Entries
import Uring.Proofs.Ring.Entries
import Uring.Proofs.Ring.Abandon
import Uring.Proofs.Ring.Confined
import Uring.Proofs.SocketCalls
import Uring.Proofs.SockAddr
import Uring.Proofs.Ring.Timeout
import Uring.Proofs.Masking
