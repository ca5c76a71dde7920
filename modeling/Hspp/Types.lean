import Hspp.Rtattr

/-! # Names of numbers (`yalin/types.h`)

Each function is a `switch` over the constants of a header.  In three of them the constants are
numbered from 0 in the order of their cases, so a table is the list of the names; the tables of
`ifi_type_to_str` and `nlmsg_type_to_str` have the numbers with the names.  For a number without
a case `rtn_type_to_str` and `ifa_family_to_str` end the process, while the other functions have
a name of its own for it, and two of them a complaint on `stderr`.

`AF_MAX` is another number in each release of the C library, and a parameter here. -/

namespace Hspp

open Text

/-- The cases of `rta_type_to_str`. -/
def rtaTypes : List String :=
  ["IFLA_UNSPEC", "IFLA_ADDRESS", "IFLA_BROADCAST", "IFLA_IFNAME", "IFLA_MTU", "IFLA_LINK ",
    "IFLA_QDISC", "IFLA_STATS", "IFLA_COST", "IFLA_PRIORITY", "IFLA_MASTER", "IFLA_WIRELESS",
    "IFLA_PROTINFO", "IFLA_TXQLEN", "IFLA_MAP", "IFLA_WEIGHT", "IFLA_OPERSTATE", "IFLA_LINKMODE",
    "IFLA_LINKINFO", "IFLA_NET_NS_PID", "IFLA_IFALIAS", "IFLA_NUM_VF", "IFLA_VFINFO_LIST",
    "IFLA_STATS64", "IFLA_VF_PORTS", "IFLA_PORT_SELF", "IFLA_AF_SPEC", "IFLA_GROUP",
    "IFLA_NET_NS_FD", "IFLA_EXT_MASK", "IFLA_PROMISCUITY", "IFLA_NUM_TX_QUEUES",
    "IFLA_NUM_RX_QUEUES", "IFLA_CARRIER", "IFLA_PHYS_PORT_ID", "IFLA_CARRIER_CHANGES",
    "IFLA_PHYS_SWITCH_ID", "IFLA_LINK_NETNSID", "IFLA_PHYS_PORT_NAME", "IFLA_PROTO_DOWN"]

/-- The cases of `rtn_type_to_str`. -/
def rtnTypes : List String :=
  ["RTN_UNSPEC", "RTN_UNICAST", "RTN_LOCAL", "RTN_BROADCAST", "RTN_ANYCAST", "RTN_MULTICAST",
    "RTN_BLACKHOLE", "RTN_UNREACHABLE", "RTN_PROHIBIT", "RTN_THROW", "RTN_NAT", "RTN_XRESOLVE"]

/-- The cases of `ifa_family_to_str` but `AF_MAX`. -/
def ifaFamilies : List String :=
  ["AF_UNSPEC", "AF_UNIX", "AF_INET", "AF_AX25", ";AF_IPX", "AF_APPLETALK", "AF_NETROM",
    "AF_BRIDGE", "AF_ATMPVC", "AF_X25", "AF_INET6", "AF_ROSE", "AF_DECnet", "AF_NETBEUI",
    "AF_SECURITY", "AF_KEY", "AF_NETLINK", "AF_PACKET", "AF_ASH", "AF_ECONET", "AF_ATMSVC",
    "AF_RDS", "AF_SNA", "AF_IRDA", "AF_PPPOX", "AF_WANPIPE", "AF_LLC", "AF_IB", "AF_MPLS",
    "AF_CAN", "AF_TIPC", "AF_BLUETOOTH", "AF_IUCV", "AF_RXRPC", "AF_ISDN", "AF_PHONET",
    "AF_IEEE802154", "AF_CAIF", "AF_ALG", "AF_NFC", "AF_VSOCK"]

/-- The cases of `ifi_type_to_str`, `ARPHRD_NETROM` and so on. -/
def ifiTypes : List (ℕ × String) :=
  [(0, "NETROM"), (1, "ETHER"), (2, "EETHER"), (3, "AX25"), (4, "PRONET"), (5, "CHAOS"),
    (6, "IEEE802"), (7, "ARCNET"), (8, "APPLETLK"), (15, "DLCI"), (19, "ATM"), (23, "METRICOM"),
    (24, "IEEE1394"), (27, "EUI64"), (32, "INFINIBAND"), (256, "SLIP"), (257, "CSLIP"),
    (258, "SLIP6"), (259, "CSLIP6"), (260, "RSRVD"), (264, "ADAPT"), (270, "ROSE"), (271, "X25"),
    (272, "HWX25"), (512, "PPP"), (513, "CISCO"), (516, "LAPB"), (517, "DDCMP"),
    (518, "RAWHDLC"), (768, "TUNNEL"), (769, "TUNNEL6"), (770, "FRAD"), (771, "SKIP"),
    (772, "LOOPBACK"), (773, "LOCALTLK"), (774, "FDDI"), (775, "BIF"), (776, "SIT"),
    (777, "IPDDP"), (778, "IPGRE"), (779, "PIMREG"), (780, "HIPPI"), (781, "ASH"),
    (782, "ECONET"), (783, "IRDA"), (784, "FCPP"), (785, "FCAL"), (786, "FCPL"),
    (787, "FCFABRIC"), (800, "IEEE802_TR"), (801, "IEEE80211"), (802, "IEEE80211_PRISM"),
    (803, "IEEE80211_RADIOTAP"), (804, "IEEE802154"), (0xffff, "VOID"), (0xfffe, "NONE")]

/-- The cases of `nlmsg_type_to_str`. -/
def nlmsgTypes : List (ℕ × String) :=
  [(16, "RTM_NEWLINK"), (17, "RTM_DELLINK"), (18, "RTM_GETLINK"), (20, "RTM_NEWADDR"),
    (21, "RTM_DELADDR"), (22, "RTM_GETADDR"), (24, "RTM_NEWROUTE"), (25, "RTM_DELROUTE"),
    (26, "RTM_GETROUTE"), (28, "RTM_NEWNEIGH"), (29, "RTM_DELNEIGH"), (30, "RTM_GETNEIGH"),
    (32, "RTM_NEWRULE"), (33, "RTM_DELRULE"), (34, "RTM_GETRULE"), (36, "RTM_NEWQDISC"),
    (37, "RTM_DELQDISC"), (38, "RTM_GETQDISC"), (40, "RTM_NEWTCLASS"), (41, "RTM_DELTCLASS"),
    (42, "RTM_GETTCLASS"), (44, "RTM_NEWTFILTER"), (45, "RTM_DELTFILTER"),
    (46, "RTM_GETTFILTER")]

/-- `ifi_type_to_str`. -/
def ifiTypeToStr (type : ℕ) : List UInt8 := ascii ((ifiTypes.lookup type).getD "unknown")

/-- `nlmsg_type_to_str`. -/
def nlmsgTypeToStr (type : ℕ) : List UInt8 := ascii ((nlmsgTypes.lookup type).getD "UNKOWN")

/-- What the `fprintf` of a default case prints. -/
def unknownErr (func : String) (type : ℕ) : List UInt8 :=
  ascii func ++ ascii ": unknown(" ++ printNum 10 1 type ++ ascii ")\n"

/-- What `nlmsg_type_to_str` prints to `stderr`. -/
def nlmsgTypeErr (type : ℕ) : List UInt8 :=
  if (nlmsgTypes.lookup type).isSome then [] else unknownErr "nlmsg_type_to_str" type

/-- What `rta_type_to_str` prints to `stderr`. -/
def rtaTypeErr (type : ℕ) : List UInt8 :=
  if type < rtaTypes.length then [] else unknownErr "rta_type_to_str" type

/-- `rta_type_to_str`. -/
def rtaTypeToStr (type : ℕ) : List UInt8 := ascii (rtaTypes[type]?.getD "unknown")

/-- A `switch` whose default ends the process. -/
def nameOrExit (names : List String) (type : ℕ) : Except Halt (List UInt8) :=
  match names[type]? with
  | some name => .ok (ascii name)
  | none => .error (.exit 1)

/-- `rtn_type_to_str`. -/
def rtnTypeToStr (type : ℕ) : Except Halt (List UInt8) := nameOrExit rtnTypes type

/-- `ifa_family_to_str`. -/
def ifaFamilyToStr (afMax family : ℕ) : Except Halt (List UInt8) :=
  if family = afMax then .ok (ascii "AF_MAX") else nameOrExit ifaFamilies family

theorem nameOrExit_eq_ok_iff (names : List String) (type : ℕ) :
    (∃ name, nameOrExit names type = .ok name) ↔ type < names.length := by
  unfold nameOrExit
  cases h : names[type]? with
  | none =>
      rw [List.getElem?_eq_none_iff] at h
      simp [Nat.not_lt.mpr h]
  | some name =>
      obtain ⟨hlt, -⟩ := List.getElem?_eq_some_iff.mp h
      simp [hlt]

theorem nameOrExit_of_le {names : List String} {type : ℕ} (h : names.length ≤ type) :
    nameOrExit names type = .error (.exit 1) := by
  rw [nameOrExit, List.getElem?_eq_none_iff.mpr h]

theorem rtnTypeToStr_eq_ok_iff (type : ℕ) : (∃ name, rtnTypeToStr type = .ok name) ↔ type < 12 :=
  nameOrExit_eq_ok_iff rtnTypes type

theorem ifaFamilyToStr_eq_ok_iff (afMax family : ℕ) :
    (∃ name, ifaFamilyToStr afMax family = .ok name) ↔ family < 41 ∨ family = afMax := by
  unfold ifaFamilyToStr
  split_ifs with h
  · simp [h]
  · rw [nameOrExit_eq_ok_iff, or_iff_left h]
    rfl

/-- A family without a case ends the process. -/
theorem ifaFamilyToStr_of_not {afMax family : ℕ} (h : ¬ (family < 41 ∨ family = afMax)) :
    ifaFamilyToStr afMax family = .error (.exit 1) := by
  obtain ⟨hlt, hmax⟩ := not_or.mp h
  rw [ifaFamilyToStr, if_neg hmax, nameOrExit_of_le (Nat.not_lt.mp hlt)]

end Hspp
