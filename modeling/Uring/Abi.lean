/-!
# Uring.Abi — the numbers of the kernel interface

Flag bits, opcodes, mapping offsets and socket numbers that a program and the kernel have to agree
on.  Flags are single bits, so sets of them are words combined with `|||`.  `words` lists every
number under its name in the kernel's headers.

A ring reads some of them itself.  The others are for its callers, whose words it hands on to the
kernel as they are: most set-up flags and features, the poll masks, the message flags, and the
levels and names of socket options.
-/

namespace Uring.Abi

/-! ### Setting up a ring -/

def setupIoPoll : UInt32 := 0x1
def setupSqPoll : UInt32 := 0x2
def setupSqAff : UInt32 := 0x4
def setupCqSize : UInt32 := 0x8
def setupClamp : UInt32 := 0x10
def setupAttachWq : UInt32 := 0x20
def setupDisabled : UInt32 := 0x40
def setupSubmitAll : UInt32 := 0x80
def setupCoopTaskRun : UInt32 := 0x100
def setupTaskRunFlag : UInt32 := 0x200

def featSingleMmap : UInt32 := 0x1
def featNoDrop : UInt32 := 0x2
def featSubmitStable : UInt32 := 0x4
def featRwCurPos : UInt32 := 0x8
def featCurPersonality : UInt32 := 0x10
def featFastPoll : UInt32 := 0x20
def featPoll32Bits : UInt32 := 0x40
def featExtArg : UInt32 := 0x100

/-! ### Mapping the ring's memory -/

/-- Where each of the three regions of a ring lies behind its descriptor. -/
def offSqRing : UInt64 := 0
def offCqRing : UInt64 := 0x08000000
def offSqes : UInt64 := 0x10000000

/-- Readable and writable. -/
def mapProtection : UInt32 := 3

/-- Shared and populated at once. -/
def mapFlags : UInt32 := 0x8001

/-- Bytes taken by one cell of the index array, one completion and one submission entry. -/
def indexBytes : Nat := 4
def completionBytes : Nat := 16
def entryBytes : Nat := 64

/-! ### Entering and registering -/

def enterGetEvents : UInt32 := 0x1
def enterSqWakeup : UInt32 := 0x2
def enterSqWait : UInt32 := 0x4

/-- Flag word of the submission ring, written by the kernel. -/
def sqNeedWakeup : UInt32 := 0x1
def sqCqOverflow : UInt32 := 0x2
def sqTaskRun : UInt32 := 0x4

def registerProbe : UInt32 := 8

/-- An opcode is supported when this bit is set in its line of the probe table. -/
def opSupported : UInt16 := 0x1

/-! ### Operations -/

def opNop : UInt8 := 0
def opPollAdd : UInt8 := 6
def opTimeout : UInt8 := 11
def opAccept : UInt8 := 13
def opAsyncCancel : UInt8 := 14
def opConnect : UInt8 := 16
def opClose : UInt8 := 19
def opRead : UInt8 := 22
def opWrite : UInt8 := 23
def opSend : UInt8 := 26
def opRecv : UInt8 := 27
def opShutdown : UInt8 := 34

def timeoutAbs : UInt32 := 0x1

def cancelAll : UInt32 := 0x1
def cancelAny : UInt32 := 0x2
def cancelFd : UInt32 := 0x4

/-- Carried in the priority field of an accept. -/
def acceptMultishot : UInt16 := 0x1

def entryFixedFile : UInt8 := 0x1
def entryDrain : UInt8 := 0x2
def entryLink : UInt8 := 0x4
def entryHardlink : UInt8 := 0x8
def entryAsync : UInt8 := 0x10
def entryBufferSelect : UInt8 := 0x20
def entrySkipSuccess : UInt8 := 0x40

def cqeBuffer : UInt32 := 0x1
def cqeMore : UInt32 := 0x2
def cqeSockNonempty : UInt32 := 0x4
def cqeNotification : UInt32 := 0x8

/-- The buffer id sits above this many bits of a completion's flags. -/
def cqeBufferShift : UInt32 := 16

def pollIn : UInt32 := 0x0001
def pollPri : UInt32 := 0x0002
def pollOut : UInt32 := 0x0004
def pollErr : UInt32 := 0x0008
def pollHup : UInt32 := 0x0010
def pollNval : UInt32 := 0x0020
def pollRdHup : UInt32 := 0x2000

/-! ### Sockets -/

def sockStream : Int32 := 1
def sockNonblock : Int32 := 2048
def sockCloexec : Int32 := 524288

def afUnspec : UInt16 := 0
def afInet : UInt16 := 2

def msgPeek : Int32 := 0x0002
def msgDontWait : Int32 := 0x0040
def msgWaitAll : Int32 := 0x0100
def msgNoSignal : Int32 := 0x4000

def solSocket : Int32 := 1
def ipprotoTcp : Int32 := 6
def soReuseAddr : Int32 := 2
def soType : Int32 := 3
def soError : Int32 := 4
def soKeepAlive : Int32 := 9
def soReusePort : Int32 := 15
def tcpNoDelay : Int32 := 1
def tcpCork : Int32 := 3

def shutRead : Int32 := 0
def shutWrite : Int32 := 1
def shutBoth : Int32 := 2

/-- Longest socket address that the kernel takes. -/
def sockAddrMax : Nat := 128

/-! ### All of them by name -/

private def bits8 (name : String) (w : UInt8) : String × Nat := (name, w.toNat)
private def bits16 (name : String) (w : UInt16) : String × Nat := (name, w.toNat)
private def bits32 (name : String) (w : UInt32) : String × Nat := (name, w.toNat)
private def bits64 (name : String) (w : UInt64) : String × Nat := (name, w.toNat)
private def number (name : String) (n : Int32) : String × Nat := (name, n.toNatClampNeg)

/-- Every public number with its name, in the order of the interface. -/
def words : List (String × Nat) :=
  [ bits32 "IORING_SETUP_IOPOLL" setupIoPoll,
    bits32 "IORING_SETUP_SQPOLL" setupSqPoll,
    bits32 "IORING_SETUP_SQ_AFF" setupSqAff,
    bits32 "IORING_SETUP_CQSIZE" setupCqSize,
    bits32 "IORING_SETUP_CLAMP" setupClamp,
    bits32 "IORING_SETUP_ATTACH_WQ" setupAttachWq,
    bits32 "IORING_SETUP_R_DISABLED" setupDisabled,
    bits32 "IORING_SETUP_SUBMIT_ALL" setupSubmitAll,
    bits32 "IORING_SETUP_COOP_TASKRUN" setupCoopTaskRun,
    bits32 "IORING_SETUP_TASKRUN_FLAG" setupTaskRunFlag,
    bits32 "IORING_ENTER_GETEVENTS" enterGetEvents,
    bits32 "IORING_ENTER_SQ_WAKEUP" enterSqWakeup,
    bits32 "IORING_ENTER_SQ_WAIT" enterSqWait,
    bits64 "IORING_OFF_SQ_RING" offSqRing,
    bits64 "IORING_OFF_CQ_RING" offCqRing,
    bits64 "IORING_OFF_SQES" offSqes,
    bits8 "IORING_OP_NOP" opNop,
    bits8 "IORING_OP_POLL_ADD" opPollAdd,
    bits8 "IORING_OP_TIMEOUT" opTimeout,
    bits8 "IORING_OP_ACCEPT" opAccept,
    bits8 "IORING_OP_ASYNC_CANCEL" opAsyncCancel,
    bits8 "IORING_OP_CONNECT" opConnect,
    bits8 "IORING_OP_CLOSE" opClose,
    bits8 "IORING_OP_READ" opRead,
    bits8 "IORING_OP_WRITE" opWrite,
    bits8 "IORING_OP_SEND" opSend,
    bits8 "IORING_OP_RECV" opRecv,
    bits8 "IORING_OP_SHUTDOWN" opShutdown,
    bits32 "IORING_TIMEOUT_ABS" timeoutAbs,
    bits32 "IORING_ASYNC_CANCEL_ALL" cancelAll,
    bits32 "IORING_ASYNC_CANCEL_ANY" cancelAny,
    bits32 "IORING_ASYNC_CANCEL_FD" cancelFd,
    bits16 "IORING_ACCEPT_MULTISHOT" acceptMultishot,
    bits8 "IOSQE_FIXED_FILE" entryFixedFile,
    bits8 "IOSQE_IO_DRAIN" entryDrain,
    bits8 "IOSQE_IO_LINK" entryLink,
    bits8 "IOSQE_IO_HARDLINK" entryHardlink,
    bits8 "IOSQE_ASYNC" entryAsync,
    bits8 "IOSQE_BUFFER_SELECT" entryBufferSelect,
    bits8 "IOSQE_CQE_SKIP_SUCCESS" entrySkipSuccess,
    bits32 "IORING_CQE_F_BUFFER" cqeBuffer,
    bits32 "IORING_CQE_F_MORE" cqeMore,
    bits32 "IORING_CQE_F_SOCK_NONEMPTY" cqeSockNonempty,
    bits32 "IORING_CQE_F_NOTIFICATION" cqeNotification,
    bits32 "IORING_SQ_NEED_WAKEUP" sqNeedWakeup,
    bits32 "IORING_SQ_CQ_OVERFLOW" sqCqOverflow,
    bits32 "IORING_SQ_TASKRUN" sqTaskRun,
    bits32 "IORING_FEAT_SINGLE_MMAP" featSingleMmap,
    bits32 "IORING_FEAT_NODROP" featNoDrop,
    bits32 "IORING_FEAT_SUBMIT_STABLE" featSubmitStable,
    bits32 "IORING_FEAT_RW_CUR_POS" featRwCurPos,
    bits32 "IORING_FEAT_CUR_PERSONALITY" featCurPersonality,
    bits32 "IORING_FEAT_FAST_POLL" featFastPoll,
    bits32 "IORING_FEAT_POLL_32BITS" featPoll32Bits,
    bits32 "IORING_FEAT_EXT_ARG" featExtArg,
    bits32 "POLLIN" pollIn,
    bits32 "POLLPRI" pollPri,
    bits32 "POLLOUT" pollOut,
    bits32 "POLLERR" pollErr,
    bits32 "POLLHUP" pollHup,
    bits32 "POLLNVAL" pollNval,
    bits32 "POLLRDHUP" pollRdHup,
    number "SOCK_STREAM" sockStream,
    number "SOCK_NONBLOCK" sockNonblock,
    number "SOCK_CLOEXEC" sockCloexec,
    bits16 "AF_UNSPEC" afUnspec,
    bits16 "AF_INET" afInet,
    number "MSG_PEEK" msgPeek,
    number "MSG_DONTWAIT" msgDontWait,
    number "MSG_WAITALL" msgWaitAll,
    number "MSG_NOSIGNAL" msgNoSignal,
    number "SOL_SOCKET" solSocket,
    number "IPPROTO_TCP" ipprotoTcp,
    number "SO_REUSEADDR" soReuseAddr,
    number "SO_TYPE" soType,
    number "SO_ERROR" soError,
    number "SO_KEEPALIVE" soKeepAlive,
    number "SO_REUSEPORT" soReusePort,
    number "TCP_NODELAY" tcpNoDelay,
    number "TCP_CORK" tcpCork,
    number "SHUT_RD" shutRead,
    number "SHUT_WR" shutWrite,
    number "SHUT_RDWR" shutBoth ]

end Uring.Abi
