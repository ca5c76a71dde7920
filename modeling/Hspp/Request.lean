import Hspp.Lib.Loop
import Hspp.Netlink

/-! # `netlink_listen` (`yalin/request.h`)

The receive buffer is a memory of its own: address `0` is `buf[0]`, and the addresses from
16384 on are whatever lies behind the array.  What `recvmsg` returns is an input of the
model (`Recv`), and a run ends as `blocked` when there is no further result.

`msgLoop` is the body of the inner `for`: the message at `h` is handed to the handler and
the loop goes on with the next one while `status` bytes are left.  `status` is an `int`,
the comparison with `sizeof(*h)` is made on `size_t`, and `status -= NLMSG_ALIGN(len)` is
computed on `unsigned int` and stored back.  `netlinkListen` is one step of the function:
a `recvmsg` and what is decided on its result, or one round of the inner loop.

A handler may keep a state and read the whole memory behind the pointer it gets; it does
not write to the buffer.  `calls` records the calls made, with the buffer as it was. -/

namespace Hspp

open CInt Memory Records

/-- A handler: its state, the buffer and the offset of the message give the next state and
the `int` it returns. -/
abbrev Handler (σ : Type*) := σ → Mem → ℕ → σ × ℤ

/-- A call of the handler: the buffer and the offset it was given. -/
abbrev Call := Mem × ℕ

variable {σ : Type*}

/-! ### The inner loop -/

/-- The variables of the inner loop. -/
structure MsgLoop (σ : Type*) where
  h : ℕ
  status : ℤ
  st : σ
  calls : List Call

/-- How the inner loop ends: a handler returned a negative value, or the bytes are used up. -/
inductive MsgExit (σ : Type*) where
  | stopped (err : ℤ) (st : σ) (calls : List Call)
  | drained (status : ℤ) (st : σ) (calls : List Call)

/-- The calls made by the time the loop ends. -/
def MsgExit.calls : MsgExit σ → List Call
  | .stopped _ _ calls => calls
  | .drained _ _ calls => calls

/-- The loop condition `status >= sizeof(*h)`. -/
def msgGuard (status : ℤ) : Prop := sizeofNlmsghdr ≤ toUnsigned 64 status

instance (status : ℤ) : Decidable (msgGuard status) := inferInstanceAs (Decidable (_ ≤ _))

/-- The next values of `h` and `status` after a message of length field `len`. -/
def msgNext (buf : Mem) (s : MsgLoop σ) (st : σ) : MsgLoop σ :=
  let len := toSigned 32 (nlmsgLen buf s.h)
  { h := s.h + nlmsgAlign len
    status := toSigned 32 (s.status - nlmsgAlign len)
    st
    calls := s.calls ++ [(buf, s.h)] }

/-- One round of `for (h = buf; status >= sizeof(*h);)`. -/
def msgLoop (handler : Handler σ) (buf : Mem) (s : MsgLoop σ) : MsgLoop σ ⊕ MsgExit σ :=
  if msgGuard s.status then
    let (st, err) := handler s.st buf s.h
    if err < 0 then .inr (.stopped err st (s.calls ++ [(buf, s.h)]))
    else .inl (msgNext buf s st)
  else .inr (.drained s.status s.st s.calls)

/-! ### The function -/

/-- The values of `errno` that the function tells apart. -/
inductive Errno where
  | EINTR
  | EAGAIN
  | ENOBUFS
  | other (code : ℕ)
deriving DecidableEq, Repr

/-- The failures after which `recvmsg` is called again. -/
def Errno.Retries (errno : Errno) : Prop := errno = .EINTR ∨ errno = .EAGAIN ∨ errno = .ENOBUFS

instance (errno : Errno) : Decidable errno.Retries := inferInstanceAs (Decidable (_ ∨ _ ∨ _))

/-- A result of `recvmsg`: bytes received, with `MSG_TRUNC` set or not, or a failure.  No
bytes is the end of file. -/
inductive Recv where
  | data (bytes : List UInt8) (trunc : Bool)
  | fail (errno : Errno)
deriving DecidableEq, Repr

/-- Where the function is: before `recvmsg`, or in the inner loop. -/
inductive Listen (σ : Type*) where
  | recv (buf : Mem) (pending : List Recv) (st : σ) (calls : List Call)
  | msgs (buf : Mem) (pending : List Recv) (trunc : Bool) (s : MsgLoop σ)

/-- How a run ends: waiting in `recvmsg`, by `return`, or by `exit`. -/
inductive Ending where
  | blocked
  | ret (v : ℤ)
  | exit (code : ℤ)
deriving DecidableEq, Repr

/-- The end of a run, the handler's last state and the calls made. -/
structure Outcome (σ : Type*) where
  ending : Ending
  st : σ
  calls : List Call

/-- One step of `netlink_listen`. -/
def netlinkListen (handler : Handler σ) : Listen σ → Listen σ ⊕ Outcome σ
  | .recv _ [] st calls => .inr ⟨.blocked, st, calls⟩
  | .recv buf (.fail errno :: pending) st calls =>
      if errno.Retries then .inl (.recv buf pending st calls)
      else .inr ⟨.ret (-1), st, calls⟩
  | .recv buf (.data bytes trunc :: pending) st calls =>
      if bytes.length = 0 then .inr ⟨.ret (-1), st, calls⟩
      else .inl (.msgs (write buf 0 bytes) pending trunc ⟨0, bytes.length, st, calls⟩)
  | .msgs buf pending trunc s =>
      match msgLoop handler buf s with
      | .inl s' => .inl (.msgs buf pending trunc s')
      | .inr (.stopped err st calls) => .inr ⟨.ret err, st, calls⟩
      | .inr (.drained status st calls) =>
          if trunc then .inl (.recv buf pending st calls)
          else if status ≠ 0 then .inr ⟨.exit 1, st, calls⟩
          else .inl (.recv buf pending st calls)

/-! ### One round -/

variable (handler : Handler σ) (buf : Mem) (s : MsgLoop σ)

/-- The comparison is unsigned: a negative `status` passes it. -/
theorem msgGuard_iff {status : ℤ} (hl : -2 ^ 31 ≤ status) (hu : status < 2 ^ 31) :
    msgGuard status ↔ status < 0 ∨ 16 ≤ status := by
  unfold msgGuard sizeofNlmsghdr
  obtain h | h := lt_or_ge status 0
  · have := toUnsigned_of_neg (w := 64) h (by omega)
    omega
  · have := toUnsigned_of_nonneg (w := 64) h (by omega)
    omega

/-- On a stored status the comparison is one of the 32-bit values. -/
theorem msgGuard_toSigned (x : ℤ) : msgGuard (toSigned 32 x) ↔ 16 ≤ toUnsigned 32 x :=
  le_toUnsigned_toSigned x (by norm_num) (by decide)

theorem msgLoop_drained (h : ¬ msgGuard s.status) :
    msgLoop handler buf s = .inr (.drained s.status s.st s.calls) := by
  rw [msgLoop, if_neg h]

theorem msgLoop_stopped (h : msgGuard s.status) (herr : (handler s.st buf s.h).2 < 0) :
    msgLoop handler buf s = .inr (.stopped (handler s.st buf s.h).2 (handler s.st buf s.h).1
      (s.calls ++ [(buf, s.h)])) := by
  simp only [msgLoop, if_pos h, if_pos herr]

theorem msgLoop_next (h : msgGuard s.status) (herr : ¬ (handler s.st buf s.h).2 < 0) :
    msgLoop handler buf s = .inl (msgNext buf s (handler s.st buf s.h).1) := by
  simp only [msgLoop, if_pos h, if_neg herr]

/-- A length that fits what is left moves `h` and `status` by the rounded length; `status`
is below zero when the padding does not fit. -/
theorem msgNext_of_le {o r : ℕ} {st st' : σ} {calls : List Call} (hr : r ≤ 16384)
    (hlen : nlmsgLen buf o ≤ r) :
    msgNext buf ⟨o, r, st, calls⟩ st' =
      ⟨o + roundUp 4 (nlmsgLen buf o), r - roundUp 4 (nlmsgLen buf o), st',
        calls ++ [(buf, o)]⟩ := by
  have ha := nlmsgAlign_of_le (n := nlmsgLen buf o) (by omega)
  have hlt := roundUp_lt (a := 4) (by norm_num) (nlmsgLen buf o)
  unfold msgNext
  simp only [ha]
  rw [toSigned_of_mem (by omega) (by omega)]

end Hspp
