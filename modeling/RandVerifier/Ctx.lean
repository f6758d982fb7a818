/-
  RandVerifier.Ctx — program types and their context tables (`src/prog_type.rs`,
  `src/ctx.rs`).

  A context read is resolved by the table of the program type: a scalar field, an invalid
  access, or a field the verifier does not model.
-/

namespace RandVerifier

inductive ProgType where
  | socketFilter
  | kprobe
  | schedCls
  | schedAct
  | tracePoint
  | xdp
  | perfEvent
  | cgroupSkb
  | cgroupSock
  | sockOps
  | skSkb
  | cgroupDevice
  | rawTracePoint
  | cgroupSockAddr
  | cgroupSysctl
  | cgroupSockopt
  | tracing
  | ext
  | lsm
  | skLookup
  | syscall
  | other (id : Nat)
  deriving DecidableEq, Repr

inductive CtxModel where
  | socketFilter
  | schedCls
  | xdp
  | tracePoint
  deriving DecidableEq, Repr

inductive CtxError where
  | invalid
  | unmodeled (field : String)
  deriving DecidableEq, Repr

inductive CtxAccess where
  | scalar
  | pointer (field : String)
  deriving DecidableEq, Repr

namespace ProgType

/-- The `BPF_PROG_TYPE_*` spelling of the error texts (`Display`). -/
def display : ProgType → String
  | socketFilter => "BPF_PROG_TYPE_SOCKET_FILTER"
  | kprobe => "BPF_PROG_TYPE_KPROBE"
  | schedCls => "BPF_PROG_TYPE_SCHED_CLS"
  | schedAct => "BPF_PROG_TYPE_SCHED_ACT"
  | tracePoint => "BPF_PROG_TYPE_TRACEPOINT"
  | xdp => "BPF_PROG_TYPE_XDP"
  | perfEvent => "BPF_PROG_TYPE_PERF_EVENT"
  | cgroupSkb => "BPF_PROG_TYPE_CGROUP_SKB"
  | cgroupSock => "BPF_PROG_TYPE_CGROUP_SOCK"
  | sockOps => "BPF_PROG_TYPE_SOCK_OPS"
  | skSkb => "BPF_PROG_TYPE_SK_SKB"
  | cgroupDevice => "BPF_PROG_TYPE_CGROUP_DEVICE"
  | rawTracePoint => "BPF_PROG_TYPE_RAW_TRACEPOINT"
  | cgroupSockAddr => "BPF_PROG_TYPE_CGROUP_SOCK_ADDR"
  | cgroupSysctl => "BPF_PROG_TYPE_CGROUP_SYSCTL"
  | cgroupSockopt => "BPF_PROG_TYPE_CGROUP_SOCKOPT"
  | tracing => "BPF_PROG_TYPE_TRACING"
  | ext => "BPF_PROG_TYPE_EXT"
  | lsm => "BPF_PROG_TYPE_LSM"
  | skLookup => "BPF_PROG_TYPE_SK_LOOKUP"
  | syscall => "BPF_PROG_TYPE_SYSCALL"
  | other id => s!"BPF_PROG_TYPE_{id}"

def ctxModel : ProgType → Option CtxModel
  | socketFilter => some .socketFilter
  | schedCls | schedAct | cgroupSkb => some .schedCls
  | xdp => some .xdp
  | tracePoint => some .tracePoint
  | _ => none

/-- Whether the program type may use the legacy packet loads. -/
def packetAccessAllowed : ProgType → Bool
  | socketFilter | schedCls | schedAct | cgroupSkb => true
  | _ => false

end ProgType

namespace Ctx

/-! ## `struct __sk_buff` -/

def skBuffSize : Int := 192
def skbTcClassid : Int := 72
def skbData : Int := 76
def skbDataEnd : Int := 80
def skbDataMeta : Int := 140
def skbFlowKeys : Int := 144
def skbTstamp : Int := 152
def skbWireLen : Int := 160
def skbSk : Int := 168
def skbTstampType : Int := 180
def skbHwtstamp : Int := 184

/-- `SKB_FAMILY_TO_LOCAL_PORT`. -/
def skbFamilyToLocalPort (off : Int) : Bool := 88 ≤ off && off ≤ 139

/-- `SKB_PADDING`. -/
def skbPadding (off : Int) : Bool := 181 ≤ off && off ≤ 183

/-- A pointer field is a surface gap at its own width and invalid at any other. -/
def pointerField (size width : Nat) (field : String) : Except CtxError CtxAccess :=
  if size = width then .error (.unmodeled field) else .error .invalid

/-- `skb_read`, after the range and alignment check and past the pointer fields. -/
def skbScalar (off : Int) (size : Nat) (socketFilter : Bool) : Except CtxError CtxAccess :=
  if socketFilter && (off == skbTcClassid || off == skbTstamp || off == skbWireLen
      || off == skbHwtstamp) then .error .invalid
  else if skbFamilyToLocalPort off then .error .invalid
  else if off = skbTstampType then
    if size = 1 ∧ socketFilter = false then .ok .scalar else .error .invalid
  else if skbPadding off then .error .invalid
  else if off = skbTstamp ∨ off = skbHwtstamp then
    if size = 8 then .ok .scalar else .error .invalid
  -- a narrow read stays inside one 32-bit word
  else if 4 < size ∨ 4 < off % 4 + size then .error .invalid
  else .ok .scalar

def skbRead (off : Int) (size : Nat) (socketFilter : Bool) : Except CtxError CtxAccess :=
  if ¬ (0 ≤ off ∧ off < skBuffSize) ∨ size = 0 ∨ off % size ≠ 0 then .error .invalid
  else if off = skbData then pointerField size 4 "__sk_buff.data"
  else if off = skbDataEnd then pointerField size 4 "__sk_buff.data_end"
  else if off = skbDataMeta then pointerField size 4 "__sk_buff.data_meta"
  else if off = skbFlowKeys then .error .invalid
  else if off = skbSk then pointerField size 8 "__sk_buff.sk"
  else skbScalar off size socketFilter

/-! ## `struct xdp_md` and the tracepoint buffer -/

def xdpMdSize : Int := 24
def xdpData : Int := 0
def xdpDataEnd : Int := 4
def xdpDataMeta : Int := 8
def xdpEgressIfindex : Int := 20
def perfMaxTraceSize : Int := 8192

def xdpRead (off : Int) (size : Nat) : Except CtxError CtxAccess :=
  if ¬ (0 ≤ off ∧ off < xdpMdSize) ∨ off % size ≠ 0 ∨ size ≠ 4 then .error .invalid
  else if off = xdpData then .error (.unmodeled "xdp_md.data")
  else if off = xdpDataEnd then .error (.unmodeled "xdp_md.data_end")
  else if off = xdpDataMeta then .error (.unmodeled "xdp_md.data_meta")
  else if off = xdpEgressIfindex then .error (.unmodeled "xdp_md.egress_ifindex")
  else .ok .scalar

def tracepointRead (off : Int) (size : Nat) : Except CtxError CtxAccess :=
  let validSize := size = 1 ∨ size = 2 ∨ size = 4 ∨ size = 8
  if ¬ (8 ≤ off ∧ off < perfMaxTraceSize) ∨ ¬ validSize ∨ off % size ≠ 0 then .error .invalid
  else .ok .scalar

/-- Resolve a context read of `size` bytes at `off` for a program type. -/
def read (prog : ProgType) (off : Int) (size : Nat) : Except CtxError CtxAccess :=
  match prog.ctxModel with
  | none => .error (.unmodeled "program type")
  | some .socketFilter => skbRead off size true
  | some .schedCls => skbRead off size false
  | some .xdp => xdpRead off size
  | some .tracePoint => tracepointRead off size

end Ctx

end RandVerifier
