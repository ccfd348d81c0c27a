import TcpCongestion.FieldText
import TcpCongestion.Posix

/-! Opening the listening socket, `_anetTcpServer` of `thirdparty/redisnet/anet.c`, against a
kernel that may refuse any call. The process is kept as its open descriptors and the numbers it
closed without having them open, so that a path which leaks a socket or closes one twice shows. -/
namespace TcpCongestion.Listening
open Posix FieldText

def ANET_ERR : Int := -1
def ANET_ERR_LEN : Nat := 256

inductive Family where
  | inet
  | inet6
  deriving DecidableEq, Repr

/-- What the system answers: whether its `n`-th call fails, and the texts of the C library. -/
structure Kernel where
  refuses : Nat → Option Errno
  strerror : Errno → List Char
  gaiStrerror : Int → List Char

/-- `err` is what the buffer of the caller holds, if the caller passed one. -/
structure Process where
  opened : List Int
  stray : List Int
  calls : Nat
  errno : Errno
  err : Option (List Char)

namespace Process

/-- A system call that succeeds or sets `errno`. -/
def call (n : Process) (k : Kernel) : Process :=
  { n with calls := n.calls + 1, errno := (k.refuses n.calls).getD n.errno }

def fails (n : Process) (k : Kernel) : Bool := (k.refuses n.calls).isSome

/-- The lowest number that is not open. -/
def unused (n : Process) : Int :=
  (((List.range (n.opened.length + 1)).map Int.ofNat).find? (· ∉ n.opened)).getD 0

def socket (n : Process) (k : Kernel) : Int × Process :=
  if n.fails k then (-1, n.call k)
  else (n.unused, { n.call k with opened := n.unused :: n.opened })

def close (n : Process) (s : Int) : Process :=
  if s ∈ n.opened then { n with opened := n.opened.filter (· ≠ s) }
  else { n with stray := s :: n.stray, errno := EBADF }

/-- `anetSetError`, with the text already put together. -/
def anetSetError (n : Process) (text : List Char) : Process :=
  { n with err := n.err.map fun _ => text.take (ANET_ERR_LEN - 1) }

end Process

/-- `anetSetReuseAddr`; whether it succeeded. -/
def anetSetReuseAddr (k : Kernel) (n : Process) : Bool × Process :=
  let after := n.call k
  if n.fails k then
    (false, after.anetSetError ("setsockopt SO_REUSEADDR: ".toList ++ k.strerror after.errno))
  else (true, after)

def anetV6Only (k : Kernel) (s : Int) (n : Process) : Bool × Process :=
  let after := n.call k
  if n.fails k then
    (false, (after.anetSetError ("setsockopt: ".toList ++ k.strerror after.errno)).close s)
  else (true, after)

def anetListen (k : Kernel) (s : Int) (n : Process) : Bool × Process :=
  let bound := n.call k
  if n.fails k then
    (false, (bound.anetSetError ("bind: ".toList ++ k.strerror bound.errno)).close s)
  else
    let listens := bound.call k
    if bound.fails k then
      (false, (listens.anetSetError ("listen: ".toList ++ k.strerror listens.errno)).close s)
    else (true, listens)

/-- The label `error`. -/
def error (s : Int) (n : Process) : Int × Process :=
  (ANET_ERR, if s ≠ -1 then n.close s else n)

/-- The rest of the loop's body once there is a socket; it never comes back to the loop. -/
def serve (k : Kernel) (af : Family) (s : Int) (n : Process) : Int × Process :=
  let (only, n) := if af = .inet6 then anetV6Only k s n else (true, n)
  if only = false then error s n
  else
    let (reuses, n) := anetSetReuseAddr k n
    if reuses = false then error s n
    else
      let (listens, n) := anetListen k s n
      (if listens then s else ANET_ERR, n)

/-- The loop over the addresses. It goes on to the next one only when `socket` fails. -/
def tryAddresses (k : Kernel) (af : Family) : List σ → Process → Int × Process
  | [], n =>
    error (-1) (n.anetSetError ("unable to bind socket, errno: ".toList ++ decimal n.errno))
  | _ :: rest, n =>
    let (s, n) := n.socket k
    if s = -1 then tryAddresses k af rest n else serve k af s n

/-- `_anetTcpServer`, with the answer of `getaddrinfo`. -/
def anetTcpServerAf (k : Kernel) (af : Family) (servinfo : Except Int (List σ)) (n : Process) :
    Int × Process :=
  match servinfo with
  | .error rv => (ANET_ERR, n.anetSetError (k.gaiStrerror rv))
  | .ok addresses => tryAddresses k af addresses n

def anetTcpServer (k : Kernel) (servinfo : Except Int (List σ)) (n : Process) : Int × Process :=
  anetTcpServerAf k .inet servinfo n

def anetTcp6Server (k : Kernel) (servinfo : Except Int (List σ)) (n : Process) : Int × Process :=
  anetTcpServerAf k .inet6 servinfo n

/-! ## Descriptors -/

private theorem Process.unused_spec (n : Process) : 0 ≤ n.unused ∧ n.unused ∉ n.opened := by
  rw [Process.unused]
  cases found : ((List.range (n.opened.length + 1)).map Int.ofNat).find? (· ∉ n.opened) with
  | some s =>
    have free := List.find?_some found
    obtain ⟨number, -, rfl⟩ := List.mem_map.mp (List.mem_of_find?_eq_some found)
    exact ⟨Int.natCast_nonneg number, of_decide_eq_true free⟩
  | none =>
    -- more numbers than open descriptors cannot all be open
    have all := List.find?_eq_none.mp found
    have inside : (List.range (n.opened.length + 1)).map Int.ofNat ⊆ n.opened := by
      intro s mem
      simpa using all s mem
    have distinct : ((List.range (n.opened.length + 1)).map Int.ofNat).Nodup :=
      List.nodup_range.map fun _ _ same => Int.ofNat.inj same
    have length := (distinct.subperm inside).length_le
    simp at length

/-- `s` was opened on the way and is the only difference. -/
structure Owns (s : Int) (before n : Process) : Prop where
  fresh : 0 ≤ s ∧ s ∉ before.opened
  opened : n.opened = s :: before.opened
  stray : n.stray = before.stray

private theorem Owns.close (owns : Owns s before n) :
    (n.close s).opened = before.opened ∧ (n.close s).stray = before.stray := by
  have mine : s ∈ n.opened := by
    rw [owns.opened]
    exact List.mem_cons_self
  rw [Process.close, if_pos mine]
  refine ⟨?_, owns.stray⟩
  rw [owns.opened, List.filter_cons_of_neg (by simp)]
  apply List.filter_eq_self.mpr
  intro other mem
  have different : other ≠ s := by
    rintro rfl
    exact owns.fresh.2 mem
  simpa using different

private theorem close_again {n : Process} (absent : s ∉ n.opened) :
    (n.close s).opened = n.opened ∧ (n.close s).stray = s :: n.stray := by
  rw [Process.close, if_neg absent]
  exact ⟨rfl, rfl⟩

/-! ## What the caller is left with -/

/-- What a new socket is put through, by the texts of its failures. -/
def setup : Family → List String
  | .inet => ["setsockopt SO_REUSEADDR: ", "bind: ", "listen: "]
  | .inet6 => ["setsockopt: ", "setsockopt SO_REUSEADDR: ", "bind: ", "listen: "]

/-- The text for the first of the calls that is refused, the first of them being the system's
call number `calls`. -/
def FirstRefusal (k : Kernel) (calls : Nat) (names : List String) (text : List Char) : Prop :=
  ∃ i what errno, names[i]? = some what ∧ (∀ j < i, k.refuses (calls + j) = none) ∧
    k.refuses (calls + i) = some errno ∧ text = what.toList ++ k.strerror errno

/-- Why none of the addresses could be used: the first for which there is a socket decides, and
without a socket the last refusal of one is reported. -/
inductive Unusable (k : Kernel) (af : Family) : Nat → Errno → List σ → List Char → Prop
  | exhausted : Unusable k af calls errno []
      ("unable to bind socket, errno: ".toList ++ decimal errno)
  | noSocket (failed : k.refuses calls = some reason)
      (others : Unusable k af (calls + 1) reason rest text) :
      Unusable k af calls errno (address :: rest) text
  | refused (made : k.refuses calls = none) (first : FirstRefusal k (calls + 1) (setup af) text) :
      Unusable k af calls errno (address :: rest) text

/-- The text that `err` is set to. -/
def Reason (k : Kernel) (af : Family) (n : Process) :
    Except Int (List σ) → List Char → Prop
  | .error rv, text => text = k.gaiStrerror rv
  | .ok addresses, text => Unusable k af n.calls n.errno addresses text

def Explained (reason : List Char → Prop) (before after : Process) : Prop :=
  ∃ text, reason text ∧ after.err = before.err.map fun _ => text.take (ANET_ERR_LEN - 1)

/-- Failed, with nothing left open and the reason told, or one new descriptor and no word. -/
def Accounts (reason : List Char → Prop) (before : Process) (result : Int × Process) : Prop :=
  (result.1 = ANET_ERR ∧ result.2.opened = before.opened ∧ Explained reason before result.2) ∨
    (0 ≤ result.1 ∧ result.1 ∉ before.opened ∧ result.2.opened = result.1 :: before.opened ∧
      result.2.err = before.err)

private theorem Accounts.imp (accounts : Accounts reason before result)
    (weaker : ∀ text, reason text → other text) : Accounts other before result := by
  rcases accounts with ⟨failed, opened, text, why, told⟩ | made
  · exact .inl ⟨failed, opened, text, weaker text why, told⟩
  · exact .inr made

private theorem explained_of {n before : Process} (same : n.err = before.err) (why : reason text) :
    Explained reason before (n.anetSetError text) := by
  refine ⟨text, why, ?_⟩
  rw [← same]
  rfl

private theorem close_err (n : Process) (s : Int) : (n.close s).err = n.err := by
  rw [Process.close]
  split <;> rfl

private theorem Explained.close (explained : Explained reason before n) :
    Explained reason before (n.close s) := by
  obtain ⟨text, why, told⟩ := explained
  exact ⟨text, why, (close_err n s).trans told⟩

private theorem Owns.call (owns : Owns s before n) : Owns s before (n.call k) :=
  ⟨owns.fresh, owns.opened, owns.stray⟩

private theorem Owns.anetSetError (owns : Owns s before n) : Owns s before (n.anetSetError text) :=
  ⟨owns.fresh, owns.opened, owns.stray⟩

/-- A failing path that closes the socket it owns. -/
theorem Owns.gives_up (owns : Owns s before n) (explained : Explained reason before n) :
    Accounts reason before (ANET_ERR, n.close s) ∧ (n.close s).stray = before.stray :=
  ⟨.inl ⟨rfl, owns.close.1, explained.close⟩, owns.close.2⟩

private theorem error_owned (fresh : 0 ≤ s) (n : Process) : error s n = (ANET_ERR, n.close s) := by
  rw [error, if_pos (by omega)]

private theorem granted_of {n : Process} (granted : ¬ n.fails k = true) :
    k.refuses n.calls = none :=
  Option.not_isSome_iff_eq_none.mp granted

/-- The call just made is refused, and its `errno` is the one to report. -/
theorem firstRefusal_head {n : Process} (failed : n.fails k = true) :
    FirstRefusal k n.calls (what :: names) (what.toList ++ k.strerror (n.call k).errno) := by
  obtain ⟨errno, refused⟩ := Option.isSome_iff_exists.mp failed
  refine ⟨0, what, errno, rfl, fun j less => absurd less (Nat.not_lt_zero j), refused, ?_⟩
  rw [Process.call, refused]
  rfl

private theorem firstRefusal_tail (granted : k.refuses calls = none)
    (later : FirstRefusal k (calls + 1) names text) :
    FirstRefusal k calls (what :: names) text := by
  obtain ⟨i, name, errno, named, before, refused, same⟩ := later
  refine ⟨i + 1, name, errno, named, fun j less => ?_, ?_, same⟩
  · cases j with
    | zero => exact granted
    | succ j =>
      rw [← Nat.add_assoc, Nat.add_right_comm]
      exact before j (by omega)
  · rw [← Nat.add_assoc, Nat.add_right_comm]
    exact refused

/-- From `SO_REUSEADDR` on, the socket is kept or closed once. -/
theorem Owns.listens (owns : Owns s before n) (same : n.err = before.err) :
    let result := serve k .inet s n
    Accounts (FirstRefusal k n.calls (setup .inet)) before result ∧
      result.2.stray = before.stray := by
  have fresh := owns.fresh.1
  simp only [serve, reduceCtorEq, if_false, Bool.true_eq_false]
  by_cases noReuse : n.fails k
  · simp only [anetSetReuseAddr, noReuse, if_true, error_owned fresh]
    apply owns.call.anetSetError.gives_up
    exact explained_of same (firstRefusal_head noReuse)
  simp only [anetSetReuseAddr, noReuse, anetListen]
  by_cases noBind : (n.call k).fails k
  · simp only [noBind, if_true, Bool.false_eq_true, if_false]
    apply owns.call.call.anetSetError.gives_up
    exact explained_of same (firstRefusal_tail (granted_of noReuse) (firstRefusal_head noBind))
  by_cases noListen : ((n.call k).call k).fails k
  · simp only [noBind, noListen, if_true, Bool.false_eq_true, if_false]
    apply owns.call.call.call.anetSetError.gives_up
    exact explained_of same (firstRefusal_tail (granted_of noReuse)
      (firstRefusal_tail (granted_of noBind) (firstRefusal_head noListen)))
  · simp only [noBind, noListen, Bool.false_eq_true, if_false, if_true]
    exact ⟨.inr ⟨fresh, owns.fresh.2, owns.opened, same⟩, owns.stray⟩

/-- `anetV6Only` closes the socket it cannot restrict, and so does `error`. -/
theorem Owns.refused (owns : Owns s before n) (same : n.err = before.err)
    (refused : n.fails k = true) :
    let result := serve k .inet6 s n
    Accounts (FirstRefusal k n.calls (setup .inet6)) before result ∧
      result.2.stray = s :: before.stray := by
  have mine : Owns s before ((n.call k).anetSetError
      ("setsockopt: ".toList ++ k.strerror (n.call k).errno)) := owns.call.anetSetError
  have told : Explained (FirstRefusal k n.calls (setup .inet6)) before ((n.call k).anetSetError
      ("setsockopt: ".toList ++ k.strerror (n.call k).errno)) :=
    explained_of same (firstRefusal_head refused)
  obtain ⟨opened, stray⟩ := mine.close
  obtain ⟨again, twice⟩ := close_again (opened ▸ owns.fresh.2)
  simp only [serve, if_true, anetV6Only, refused, error_owned owns.fresh.1]
  refine ⟨.inl ⟨rfl, again.trans opened, told.close.close⟩, ?_⟩
  rw [twice, stray]

private theorem serve_restricted (granted : n.fails k = false) :
    serve k .inet6 s n = serve k .inet s (n.call k) := by
  simp [serve, anetV6Only, granted]

/-! ## The loop -/

/-- The first socket that can be made for one of `count` addresses cannot be restricted to
IPv6. -/
def V6Refused (k : Kernel) (calls count : Nat) : Prop :=
  ∃ i < count, (∀ j < i, (k.refuses (calls + j)).isSome) ∧ k.refuses (calls + i) = none ∧
    (k.refuses (calls + i + 1)).isSome

private theorem v6Refused_skip (failed : (k.refuses calls).isSome = true) :
    V6Refused k calls (count + 1) ↔ V6Refused k (calls + 1) count := by
  constructor
  · rintro ⟨i, bound, before, made, refused⟩
    cases i with
    | zero =>
      rw [Nat.add_zero] at made
      rw [made] at failed
      cases failed
    | succ i =>
      refine ⟨i, by omega, ?_, ?_, ?_⟩
      · intro j less
        rw [Nat.add_right_comm]
        exact before (j + 1) (by omega)
      · rw [Nat.add_right_comm]
        exact made
      · rw [Nat.add_right_comm calls 1 i]
        exact refused
  · rintro ⟨i, bound, before, made, refused⟩
    refine ⟨i + 1, by omega, ?_, ?_, ?_⟩
    · intro j less
      cases j with
      | zero => exact failed
      | succ j =>
        rw [← Nat.add_assoc, Nat.add_right_comm]
        exact before j (by omega)
    · rw [← Nat.add_assoc, Nat.add_right_comm]
      exact made
    · rw [← Nat.add_assoc, Nat.add_right_comm calls i 1]
      exact refused

private theorem v6Refused_made (made : k.refuses calls = none) :
    V6Refused k calls (count + 1) ↔ (k.refuses (calls + 1)).isSome = true := by
  constructor
  · rintro ⟨i, -, before, -, refused⟩
    cases i with
    | zero => exact refused
    | succ i =>
      have failed := before 0 (Nat.succ_pos i)
      rw [Nat.add_zero, made] at failed
      cases failed
  · intro refused
    exact ⟨0, Nat.succ_pos count, fun j less => absurd less (Nat.not_lt_zero j), made, refused⟩

private theorem socket_owns (n : Process) (made : n.fails k = false) :
    n.socket k = (n.unused, { n.call k with opened := n.unused :: n.opened }) ∧
      Owns n.unused n { n.call k with opened := n.unused :: n.opened } := by
  refine ⟨?_, n.unused_spec, rfl, rfl⟩
  rw [Process.socket, made]
  rfl

private theorem tryAddresses_accounts (k : Kernel) (af : Family) (addresses : List σ)
    (n : Process) :
    let result := tryAddresses k af addresses n
    Accounts (Unusable k af n.calls n.errno addresses) n result ∧
      (result.2.stray = n.stray ↔ ¬ (af = .inet6 ∧ V6Refused k n.calls addresses.length)) := by
  induction addresses generalizing n with
  | nil =>
    refine ⟨.inl ⟨rfl, rfl, _, .exhausted, rfl⟩, ?_⟩
    simp [tryAddresses, error, Process.anetSetError, V6Refused]
  | cons address rest ih =>
    simp only [tryAddresses]
    cases made : n.fails k with
    | true =>
      obtain ⟨errno, refused⟩ := Option.isSome_iff_exists.mp made
      have skipped : n.socket k = (-1, n.call k) := by
        rw [Process.socket, made]
        rfl
      have reported : (n.call k).errno = errno := by
        rw [Process.call, refused]
        rfl
      rw [skipped, List.length_cons, v6Refused_skip made]
      -- a failing `socket` leaves the descriptors and `err` as they were
      obtain ⟨accounts, stray⟩ := ih (n.call k)
      rw [reported] at accounts
      exact ⟨accounts.imp fun _ => .noSocket refused, stray⟩
    | false =>
      obtain ⟨opens, owns⟩ := socket_owns n made
      have fresh := owns.fresh.1
      have none : k.refuses n.calls = none := granted_of (Bool.eq_false_iff.mp made)
      rw [opens, List.length_cons, v6Refused_made none]
      simp only [if_neg (show n.unused ≠ -1 by omega)]
      cases af with
      | inet =>
        obtain ⟨accounts, stray⟩ := owns.listens (k := k) rfl
        exact ⟨accounts.imp fun _ => .refused none, by simp [stray]⟩
      | inet6 =>
        by_cases refused : (k.refuses (n.calls + 1)).isSome = true
        · obtain ⟨accounts, stray⟩ := owns.refused (k := k) rfl refused
          exact ⟨accounts.imp fun _ => .refused none, by simp [stray, refused]⟩
        · have granted : Process.fails
              { n.call k with opened := n.unused :: n.opened } k = false :=
            Bool.eq_false_iff.mpr refused
          rw [serve_restricted granted]
          obtain ⟨accounts, stray⟩ := owns.call.listens (k := k) rfl
          refine ⟨accounts.imp fun _ first => .refused none ?_, by simp [stray, refused]⟩
          exact firstRefusal_tail (Option.not_isSome_iff_eq_none.mp refused) first

/-- Whatever the kernel refuses, the caller gets one new descriptor, or an error with its reason
and nothing left open. No descriptor is closed twice, unless the first socket that could be made
for an IPv6 server cannot be restricted to IPv6. -/
theorem listening_descriptors (k : Kernel) (af : Family) (servinfo : Except Int (List σ))
    (n : Process) :
    let result := anetTcpServerAf k af servinfo n
    Accounts (Reason k af n servinfo) n result ∧
      (result.2.stray = n.stray ↔
        ¬ (af = .inet6 ∧ ∃ addresses, servinfo = .ok addresses ∧
          V6Refused k n.calls addresses.length)) := by
  cases servinfo with
  | error rv =>
    refine ⟨.inl ⟨rfl, rfl, _, rfl, rfl⟩, ?_⟩
    simp [anetTcpServerAf, Process.anetSetError]
  | ok addresses =>
    obtain ⟨accounts, stray⟩ := tryAddresses_accounts k af addresses n
    refine ⟨accounts, stray.trans ?_⟩
    simp

end TcpCongestion.Listening
