import Hspp.Lib.Records

/-! # Netlink messages

The header of a message and the macros of `<linux/netlink.h>` that the program uses, on a
little-endian 64-bit machine.  A `Message` is a record of at least the 16 bytes of its
header that starts with `nlmsg_len`; the messages of a datagram are padded to 4 bytes. -/

namespace Hspp

open CInt Memory Records

/-- `sizeof(struct nlmsghdr)`. -/
def sizeofNlmsghdr : ℕ := 16

/-- The field `nlmsg_len` of the header at `h`. -/
def nlmsgLen (m : Mem) (h : ℕ) : ℕ := leNat (bytesAt m h 4)

/-- The field `nlmsg_type` of the header at `h`. -/
def nlmsgType (m : Mem) (h : ℕ) : ℕ := leNat (bytesAt m (h + 4) 2)

/-- `NLMSG_ALIGN(len)`: `NLMSG_ALIGNTO` is `4U`, so the sum is unsigned and of 32 bits. -/
def nlmsgAlign (len : ℤ) : ℕ := alignUp 32 4 (toUnsigned 32 len)

/-- A netlink message with the padding that follows it. -/
abbrev Message := Record 4 16 4

theorem nlmsgLen_lt (m : Mem) (h : ℕ) : nlmsgLen m h < 2 ^ 32 := by
  have := leNat_lt (bytesAt m h 4)
  rwa [length_bytesAt] at this

/-- The sum in `NLMSG_ALIGN` wraps for the lengths from `2 ^ 32 - 3` on. -/
theorem nlmsgAlign_toSigned {n : ℕ} (hn : n < 2 ^ 32) :
    nlmsgAlign (toSigned 32 n) = (n + 3) % 2 ^ 32 / 4 * 4 := by
  rw [nlmsgAlign, toUnsigned_toSigned, toUnsigned_ofNat hn]
  exact alignUp_eq (k := 2) n (by norm_num)

theorem nlmsgAlign_of_le {n : ℕ} (hn : n ≤ 2 ^ 32 - 4) :
    nlmsgAlign (toSigned 32 n) = roundUp 4 n := by
  rw [nlmsgAlign_toSigned (by omega), Nat.mod_eq_of_lt (by omega)]
  rfl

theorem Message.nlmsgLen_eq {m : Mem} {o : ℕ} {msg : Message} (h : Holds m o msg.bytes) :
    nlmsgLen m o = msg.bytes.length :=
  Record.lenField (by norm_num) h

end Hspp
