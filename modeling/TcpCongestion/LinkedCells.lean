import Mathlib.Data.List.Nodup
import Mathlib.Logic.Function.Basic

/-! Doubly linked lists in a memory of allocated cells. A read or a write of an address that is
not allocated has no result, so a computation that has one touched only allocated cells. `Holds`
says that the memory is one list and some cells that have left it but are not freed yet; each
operation has one lemma that says how it changes the two. -/
namespace TcpCongestion.LinkedCells

/-- An allocated cell: its two links and what it holds. -/
structure Cell (α β : Type u) where
  prev : Option α
  next : Option α
  value : β

/-- The cells allocated, by their address. -/
abbrev Heap (α β : Type u) := α → Option (Cell α β)

variable {α β : Type u}

/-- Where a walk over the nodes begins; `after` follows the last of them. -/
def entrance : List (α × β) → Option α → Option α
  | [], after => after
  | (a, _) :: _, _ => some a

/-- The last of the nodes; `before` precedes the first of them. -/
def leaving : Option α → List (α × β) → Option α
  | before, [] => before
  | _, (a, _) :: rest => leaving (some a) rest

/-- The nodes are in the heap, each linked to the one before it and to the one after it. -/
def Linked (heap : Heap α β) : Option α → List (α × β) → Option α → Prop
  | _, [], _ => True
  | before, (a, v) :: rest, after =>
    heap a = some ⟨before, entrance rest after, v⟩ ∧ Linked heap (some a) rest after

/-- The addresses of the nodes. -/
def addresses (nodes : List (α × β)) : List α := nodes.map Prod.fst

@[simp] theorem addresses_cons (a : α) (v : β) (nodes : List (α × β)) :
    addresses ((a, v) :: nodes) = a :: addresses nodes := rfl

@[simp] theorem addresses_append (first second : List (α × β)) :
    addresses (first ++ second) = addresses first ++ addresses second :=
  List.map_append

theorem entrance_append (first second : List (α × β)) (after : Option α) :
    entrance (first ++ second) after = entrance first (entrance second after) := by
  cases first with
  | nil => rfl
  | cons node rest => rfl

theorem entrance_eq_some {nodes : List (α × β)} (begins : entrance nodes none = some a) :
    ∃ v rest, nodes = (a, v) :: rest := by
  cases nodes with
  | nil => cases begins
  | cons node rest =>
    cases begins
    exact ⟨node.2, rest, rfl⟩

theorem entrance_eq_none {nodes : List (α × β)} : entrance nodes none = none ↔ nodes = [] := by
  cases nodes with
  | nil => exact iff_of_true rfl rfl
  | cons node rest => exact iff_of_false (by rintro ⟨⟩) (by rintro ⟨⟩)

@[simp] theorem entrance_map (nodes : List (α × β)) (f : β → β) :
    entrance (nodes.map (Prod.map id f)) none = entrance nodes none := by
  cases nodes with
  | nil => rfl
  | cons node rest => rfl

theorem leaving_append (before : Option α) (first second : List (α × β)) :
    leaving before (first ++ second) = leaving (leaving before first) second := by
  induction first generalizing before with
  | nil => rfl
  | cons node rest ih => exact ih (some node.1)

theorem linked_append {heap : Heap α β} {before after : Option α} {first second : List (α × β)} :
    Linked heap before (first ++ second) after ↔
      Linked heap before first (entrance second after) ∧
        Linked heap (leaving before first) second after := by
  induction first generalizing before with
  | nil => exact (true_and _).symm ▸ Iff.rfl
  | cons node rest ih =>
    rw [List.cons_append, Linked, Linked, entrance_append, ih, and_assoc]
    rfl

/-- The links of nodes that nobody writes stay. -/
theorem Linked.frame {heap later : Heap α β} {before after : Option α} {nodes : List (α × β)}
    (linked : Linked heap before nodes after)
    (same : ∀ a ∈ addresses nodes, later a = heap a) : Linked later before nodes after := by
  induction nodes generalizing before with
  | nil => trivial
  | cons node rest ih =>
    refine ⟨(same node.1 List.mem_cons_self).trans linked.1, ih linked.2 ?_⟩
    intro a member
    exact same a (List.mem_cons_of_mem _ member)

theorem Linked.allocated {heap : Heap α β} {before after : Option α} {nodes : List (α × β)}
    (linked : Linked heap before nodes after) (member : a ∈ addresses nodes) : heap a ≠ none := by
  induction nodes generalizing before with
  | nil => cases member
  | cons node rest ih =>
    obtain rfl | later := List.mem_cons.mp member
    · rw [linked.1]
      exact Option.some_ne_none _
    · exact ih linked.2 later

/-- The memory is one list and the cells that are not in it, `loose`. -/
structure Holds (heap : Heap α β) (nodes loose : List (α × β)) : Prop where
  linked : Linked heap none nodes none
  apart : (addresses (nodes ++ loose)).Nodup
  unlisted : ∀ a v, (a, v) ∈ loose → ∃ cell, heap a = some cell ∧ cell.value = v
  only : ∀ a, heap a ≠ none → a ∈ addresses (nodes ++ loose)

/-- An empty memory. -/
theorem holds_nothing : Holds (fun _ => none : Heap α β) [] [] where
  linked := trivial
  apart := List.nodup_nil
  unlisted _ _ member := by cases member
  only _ allocated := (allocated rfl).elim

section
variable {heap : Heap α β} {first second loose nodes : List (α × β)} {a : α} {v : β}

/-- A node is not in the rest of the list, nor loose. -/
theorem Holds.alone (holds : Holds heap (first ++ (a, v) :: second) loose) :
    a ∉ addresses first ∧ a ∉ addresses second ∧ a ∉ addresses loose := by
  have apart := holds.apart
  simp only [addresses_append, addresses_cons, List.append_assoc, List.cons_append,
    List.nodup_middle, List.nodup_cons, List.mem_append, not_or] at apart
  exact apart.1

theorem Holds.read (holds : Holds heap (first ++ (a, v) :: second) loose) :
    heap a = some ⟨leaving none first, entrance second none, v⟩ :=
  (linked_append.mp holds.linked).2.1

theorem Holds.read_loose (holds : Holds heap nodes ((a, v) :: loose)) :
    ∃ cell, heap a = some cell ∧ cell.value = v :=
  holds.unlisted a v List.mem_cons_self

end

theorem Holds.stored {heap : Heap α β} {nodes loose : List (α × β)}
    (holds : Holds heap nodes loose) (member : (a, v) ∈ nodes ++ loose) :
    ∃ cell, heap a = some cell ∧ cell.value = v := by
  obtain listed | free := List.mem_append.mp member
  · obtain ⟨first, second, rfl⟩ := List.append_of_mem listed
    exact ⟨_, holds.read, rfl⟩
  · exact holds.unlisted a v free

/-- What is allocated is a node, or loose. -/
theorem Holds.member {heap : Heap α β} {nodes loose : List (α × β)}
    (holds : Holds heap nodes loose) (there : heap a = some cell) :
    (a, cell.value) ∈ nodes ++ loose := by
  have allocated : heap a ≠ none := by
    rw [there]
    exact Option.some_ne_none _
  obtain ⟨⟨b, v⟩, member, rfl⟩ := List.mem_map.mp (holds.only a allocated)
  obtain ⟨other, read, rfl⟩ := holds.stored member
  cases there.symm.trans read
  exact member

/-- Two memories with the same cells allocated, that differ at these addresses only. -/
structure Within (heap later : Heap α β) (touched : List α) : Prop where
  outside : ∀ a, a ∉ touched → later a = heap a
  allocated : ∀ a, later a ≠ none → heap a ≠ none

theorem Within.refl (heap : Heap α β) (touched : List α) : Within heap heap touched :=
  ⟨fun _ _ => rfl, fun _ allocated => allocated⟩

theorem Within.trans {heap mid later : Heap α β} {touched : List α}
    (one : Within heap mid touched) (two : Within mid later touched) :
    Within heap later touched :=
  ⟨fun a away => (two.outside a away).trans (one.outside a away),
    fun a allocated => one.allocated a (two.allocated a allocated)⟩

theorem Within.mono {heap later : Heap α β} {touched more : List α}
    (within : Within heap later touched) (fewer : ∀ a ∈ touched, a ∈ more) :
    Within heap later more :=
  ⟨fun a away => within.outside a fun member => away (fewer a member), within.allocated⟩

/-- What is written inside the list leaves the rest of the memory. A node that is linked no
more is loose. -/
theorem Holds.within {heap later : Heap α β} {nodes others loose spare : List (α × β)}
    (holds : Holds heap nodes loose) (linked : Linked later none others none)
    (same : (addresses (others ++ spare)).Perm (addresses (nodes ++ loose)))
    (within : Within heap later (addresses nodes))
    (left : ∀ a v, (a, v) ∈ spare →
      (a, v) ∈ loose ∨ ∃ cell, later a = some cell ∧ cell.value = v) :
    Holds later others spare where
  linked := linked
  apart := same.nodup_iff.mpr holds.apart
  unlisted a v member := by
    obtain before | now := left a v member
    · have apart := holds.apart
      rw [addresses_append] at apart
      have away : a ∉ addresses nodes := fun listed =>
        List.disjoint_of_nodup_append apart listed (List.mem_map.mpr ⟨(a, v), before, rfl⟩)
      rw [within.outside a away]
      exact holds.unlisted a v before
    · exact now
  only a allocated := same.mem_iff.mpr (holds.only a (within.allocated a allocated))

/-! ## A walk that reads -/

/-- The first cell from `start` on that holds what is looked for. -/
def search (heap : Heap α β) (found : β → Bool) : Nat → Option α → Option (Option α)
  | 0, _ => none
  | _ + 1, none => some none
  | fuel + 1, some a => do
    let cell ← heap a
    if found cell.value then some (some a) else search heap found fuel cell.next

theorem search_spec {heap : Heap α β} {before : Option α} {nodes : List (α × β)}
    (linked : Linked heap before nodes none) (found : β → Bool) (enough : nodes.length < fuel) :
    search heap found fuel (entrance nodes none) =
      some ((nodes.find? fun node => found node.2).map Prod.fst) := by
  induction nodes generalizing before fuel with
  | nil =>
    cases fuel with
    | zero => cases enough
    | succ fuel => rfl
  | cons node rest ih =>
    cases fuel with
    | zero => cases enough
    | succ fuel =>
      have onward := ih linked.2 (Nat.lt_of_succ_lt_succ enough)
      have here : heap node.1 = some ⟨before, entrance rest none, node.2⟩ := linked.1
      rw [entrance, search, here, Option.bind_eq_bind, Option.bind_some, onward, List.find?_cons]
      cases found node.2 <;> rfl

variable [DecidableEq α]

/-! ## Writing -/

/-- A write to the cell at `a`. -/
def modify (heap : Heap α β) (a : α) (f : Cell α β → Cell α β) : Option (Heap α β) :=
  (heap a).map fun cell => Function.update heap a (some (f cell))

def setNext (heap : Heap α β) (a : α) (next : Option α) : Option (Heap α β) :=
  modify heap a fun cell => { cell with next }

def setPrev (heap : Heap α β) (a : α) (prev : Option α) : Option (Heap α β) :=
  modify heap a fun cell => { cell with prev }

def setValue (heap : Heap α β) (a : α) (f : β → β) : Option (Heap α β) :=
  modify heap a fun cell => { cell with value := f cell.value }

/-- The memory of the cell is given back. -/
def free (heap : Heap α β) (a : α) : Option (Heap α β) :=
  (heap a).map fun _ => Function.update heap a none

theorem modify_spec {heap : Heap α β} {a : α} {cell : Cell α β} (there : heap a = some cell)
    (f : Cell α β → Cell α β) :
    ∃ later, modify heap a f = some later ∧ later a = some (f cell) ∧ Within heap later [a] := by
  refine ⟨Function.update heap a (some (f cell)), by rw [modify, there]; rfl,
    Function.update_self .., ⟨fun b away => ?_, fun b allocated => ?_⟩⟩
  · exact Function.update_of_ne (fun same => away (List.mem_singleton.mpr same)) _ _
  · by_cases same : b = a
    · rw [same, there]
      exact Option.some_ne_none _
    · rwa [Function.update_of_ne same] at allocated

/-- A write of what one node holds. -/
theorem Holds.setValue {heap : Heap α β} {first second loose : List (α × β)} {a : α} {v : β}
    (holds : Holds heap (first ++ (a, v) :: second) loose) (f : β → β) :
    ∃ later, setValue heap a f = some later ∧
      Holds later (first ++ (a, f v) :: second) loose := by
  obtain ⟨later, wrote, here, within⟩ :=
    modify_spec holds.read fun cell => { cell with value := f cell.value }
  obtain ⟨outFirst, outSecond, -⟩ := holds.alone
  obtain ⟨before, -, after⟩ := linked_append.mp holds.linked
  have kept : ∀ b, b ≠ a → later b = heap b := fun b other =>
    within.outside b fun member => other (List.mem_singleton.mp member)
  refine ⟨later, wrote, holds.within (linked_append.mpr ⟨?_, here, ?_⟩)
    (by simp) (within.mono ?_) fun b w member => .inl member⟩
  · exact before.frame fun b member => kept b (ne_of_mem_of_not_mem member outFirst)
  · exact after.frame fun b member => kept b (ne_of_mem_of_not_mem member outSecond)
  · intro b member
    rw [List.mem_singleton.mp member]
    simp

/-! ## Inserting at the front and taking out -/

/-- The link to what comes next, in the cell `before`, or in `head` where there is none. -/
def linkNext (heap : Heap α β) (head before next : Option α) :
    Option (Heap α β × Option α) :=
  match before with
  | some a => (setNext heap a next).map (·, head)
  | none => some (heap, next)

/-- The link back of the cell `next`, if there is one. -/
def linkPrev (heap : Heap α β) (next before : Option α) : Option (Heap α β) :=
  match next with
  | some a => setPrev heap a before
  | none => some heap

/-- A new cell in front of the list that begins at `head`. -/
def pushFront (heap : Heap α β) (head : Option α) (a : α) (value : β) : Option (Heap α β) :=
  linkPrev (Function.update heap a (some ⟨none, head, value⟩)) head (some a)

/-- The cell leaves the list that begins at `head`; it keeps its own links. -/
def unlink (heap : Heap α β) (head : Option α) (a : α) : Option (Heap α β × Option α) := do
  let cell ← heap a
  let (heap, head) ← linkNext heap head cell.prev cell.next
  let cell ← heap a
  let heap ← linkPrev heap cell.next cell.prev
  some (heap, head)

theorem linkNext_spec {heap : Heap α β} {nodes : List (α × β)} {after : Option α}
    (linked : Linked heap none nodes after) (apart : (addresses nodes).Nodup) (next : Option α) :
    ∃ later, linkNext heap (entrance nodes after) (leaving none nodes) next =
        some (later, entrance nodes next) ∧
      Linked later none nodes next ∧ Within heap later (addresses nodes) := by
  obtain rfl | ⟨front, ⟨a, v⟩, rfl⟩ := List.eq_nil_or_concat' nodes
  · exact ⟨heap, rfl, trivial, Within.refl heap []⟩
  · obtain ⟨before, here, -⟩ := linked_append.mp linked
    obtain ⟨later, wrote, now, within⟩ := modify_spec here fun cell => { cell with next }
    have out : a ∉ addresses front := by
      rw [addresses_append] at apart
      exact fun member => List.disjoint_of_nodup_append apart member (by simp)
    refine ⟨later, ?_, linked_append.mpr ⟨?_, now, trivial⟩, within.mono (by simp)⟩
    · rw [leaving_append, leaving, leaving, linkNext, setNext, wrote, entrance_append,
        entrance_append]
      rfl
    · apply before.frame
      intro b member
      exact within.outside b fun same =>
        out (List.mem_singleton.mp same ▸ member)

theorem linkPrev_spec {heap : Heap α β} {nodes : List (α × β)} {before : Option α}
    (linked : Linked heap before nodes none) (apart : (addresses nodes).Nodup)
    (prev : Option α) :
    ∃ later, linkPrev heap (entrance nodes none) prev = some later ∧
      Linked later prev nodes none ∧ Within heap later (addresses nodes) := by
  cases nodes with
  | nil => exact ⟨heap, rfl, trivial, Within.refl heap []⟩
  | cons node rest =>
    obtain ⟨later, wrote, now, within⟩ := modify_spec linked.1 fun cell => { cell with prev }
    refine ⟨later, wrote, ⟨now, linked.2.frame ?_⟩, within.mono (by simp [addresses])⟩
    intro b member
    apply within.outside
    rintro same
    rw [List.mem_singleton.mp same] at member
    exact (List.nodup_cons.mp apart).1 member

/-- A new cell comes in front of all others. -/
theorem Holds.pushFront {heap : Heap α β} {nodes loose : List (α × β)} {a : α}
    (holds : Holds heap nodes loose) (unused : heap a = none) (v : β) :
    ∃ later, pushFront heap (entrance nodes none) a v = some later ∧
      Holds later ((a, v) :: nodes) loose := by
  have fresh : a ∉ addresses (nodes ++ loose) := by
    rw [addresses_append, List.mem_append]
    rintro (listed | free)
    · exact holds.linked.allocated listed unused
    · obtain ⟨⟨b, w⟩, member, rfl⟩ := List.mem_map.mp free
      obtain ⟨cell, there, -⟩ := holds.unlisted b w member
      cases unused.symm.trans there
  have apart := holds.apart
  rw [addresses_append] at apart fresh
  have old : ∀ b, b ≠ a →
      Function.update heap a (some ⟨none, entrance nodes none, v⟩) b = heap b :=
    fun b other => Function.update_of_ne other _ _
  have linked := holds.linked.frame fun b member =>
    old b (ne_of_mem_of_not_mem member fun listed => fresh (List.mem_append_left _ listed))
  obtain ⟨later, wrote, relinked, within⟩ :=
    linkPrev_spec linked apart.of_append_left (some a)
  have here : later a = some ⟨none, entrance nodes none, v⟩ := by
    rw [within.outside a fun listed => fresh (List.mem_append_left _ listed)]
    exact Function.update_self ..
  refine ⟨later, wrote, ⟨here, relinked⟩, ?_, fun b w member => ?_, fun b allocated => ?_⟩
  · rw [List.cons_append, addresses_cons, addresses_append]
    exact List.nodup_cons.mpr ⟨fresh, apart⟩
  · have away : b ∈ addresses loose := List.mem_map.mpr ⟨(b, w), member, rfl⟩
    rw [within.outside b fun listed => List.disjoint_of_nodup_append apart listed away,
      old b (ne_of_mem_of_not_mem away fun free => fresh (List.mem_append_right _ free))]
    exact holds.unlisted b w member
  · rw [List.cons_append, addresses_cons, List.mem_cons]
    by_cases same : b = a
    · exact .inl same
    · have allocated := within.allocated b allocated
      rw [old b same] at allocated
      exact .inr (holds.only b allocated)

/-- A node leaves the list and is loose from then on. -/
theorem Holds.unlink {heap : Heap α β} {first second loose : List (α × β)} {a : α} {v : β}
    (holds : Holds heap (first ++ (a, v) :: second) loose) :
    ∃ later, unlink heap (entrance (first ++ (a, v) :: second) none) a =
        some (later, entrance (first ++ second) none) ∧
      later a = some ⟨leaving none first, entrance second none, v⟩ ∧
      Holds later (first ++ second) ((a, v) :: loose) := by
  obtain ⟨outFirst, outSecond, outLoose⟩ := holds.alone
  have apart := holds.apart
  simp only [addresses_append, addresses_cons, List.append_assoc, List.cons_append] at apart
  have apartFirst := apart.of_append_left
  have apartSecond := (List.nodup_cons.mp apart.of_append_right).2.of_append_left
  have disjoint := List.disjoint_of_nodup_append apart
  obtain ⟨before, here, after⟩ := linked_append.mp holds.linked
  -- the cell before is joined to what follows, then what follows to the cell before
  obtain ⟨mid, joined, linkedFirst, withinFirst⟩ :=
    linkNext_spec before apartFirst (entrance second none)
  have still : mid a = heap a := withinFirst.outside a outFirst
  have afterMid : Linked mid (some a) second none := by
    apply after.frame
    intro b member
    apply withinFirst.outside
    intro listed
    exact disjoint listed (List.mem_cons_of_mem _ (List.mem_append_left _ member))
  obtain ⟨later, rejoined, linkedSecond, withinSecond⟩ :=
    linkPrev_spec afterMid apartSecond (leaving none first)
  have unlinked : later a = heap a := (withinSecond.outside a outSecond).trans still
  refine ⟨later, ?_, unlinked.trans here, holds.within (linked_append.mpr ⟨?_, linkedSecond⟩)
    ?_ ?_ ?_⟩
  · have begins : entrance (first ++ (a, v) :: second) none = entrance first (some a) :=
      entrance_append ..
    have ends : entrance (first ++ second) none = entrance first (entrance second none) :=
      entrance_append ..
    have joined : linkNext heap (entrance first (some a)) (leaving none first)
      (entrance second none) = some (mid, entrance first (entrance second none)) := joined
    rw [begins, ends]
    simp only [LinkedCells.unlink, here, Option.bind_eq_bind, Option.bind_some, joined, still,
      rejoined]
  · apply linkedFirst.frame
    intro b member
    apply withinSecond.outside
    intro listed
    exact disjoint member (List.mem_cons_of_mem _ (List.mem_append_left _ listed))
  · simpa using List.perm_middle.append_left (addresses first)
  · apply (withinFirst.mono ?_).trans (withinSecond.mono ?_)
    · intro b member
      simp [member]
    · intro b member
      simp [member]
  · intro b w member
    obtain same | loosened := List.mem_cons.mp member
    · cases same
      exact .inr ⟨_, unlinked.trans here, rfl⟩
    · exact .inl loosened

/-- A loose cell is freed. -/
theorem Holds.free {heap : Heap α β} {nodes loose : List (α × β)} {a : α} {v : β}
    (holds : Holds heap nodes ((a, v) :: loose)) :
    ∃ later, free heap a = some later ∧ Holds later nodes loose := by
  obtain ⟨cell, there, -⟩ := holds.read_loose
  have perm : (addresses (nodes ++ (a, v) :: loose)).Perm (a :: addresses (nodes ++ loose)) := by
    simp
  obtain ⟨out, apart⟩ := List.nodup_cons.mp (perm.nodup_iff.mp holds.apart)
  have kept : ∀ b, b ≠ a → Function.update heap a none b = heap b :=
    fun b other => Function.update_of_ne other _ _
  refine ⟨Function.update heap a none, by rw [LinkedCells.free, there]; rfl,
    holds.linked.frame fun b member => kept b ?_, apart, fun b w member => ?_,
    fun b allocated => ?_⟩
  · rintro rfl
    exact out (by simp [member])
  · have other : b ≠ a := by
      rintro rfl
      exact out (by
        rw [addresses_append]
        exact List.mem_append_right _ (List.mem_map.mpr ⟨(b, w), member, rfl⟩))
    rw [kept b other]
    exact holds.unlisted b w (List.mem_cons_of_mem _ member)
  · have other : b ≠ a := by
      rintro rfl
      exact allocated (Function.update_self ..)
    rw [kept b other] at allocated
    obtain same | listed := List.mem_cons.mp (perm.mem_iff.mp (holds.only b allocated))
    · exact (other same).elim
    · exact listed

/-! ## A walk that writes -/

/-- Every cell from `start` on is written. -/
def setAll (f : β → β) : Nat → Heap α β → Option α → Option (Heap α β)
  | 0, _, _ => none
  | _ + 1, heap, none => some heap
  | fuel + 1, heap, some a => do
    let heap ← setValue heap a f
    let cell ← heap a
    setAll f fuel heap cell.next

/-- A walk over the rest of the list writes all of it. -/
theorem Holds.setAll {heap : Heap α β} {first second loose : List (α × β)} (f : β → β)
    (holds : Holds heap (first ++ second) loose) (enough : second.length < fuel) :
    ∃ later, setAll f fuel heap (entrance second none) = some later ∧
      Holds later (first ++ second.map (Prod.map id f)) loose := by
  induction second generalizing first heap fuel with
  | nil =>
    cases fuel with
    | zero => cases enough
    | succ fuel => exact ⟨heap, rfl, holds⟩
  | cons node rest ih =>
    obtain ⟨a, v⟩ := node
    cases fuel with
    | zero => cases enough
    | succ fuel =>
      obtain ⟨mid, wrote, held⟩ := holds.setValue f
      have here := held.read
      rw [List.append_cons] at held
      obtain ⟨later, walked, all⟩ := ih held (Nat.lt_of_succ_lt_succ enough)
      refine ⟨later, ?_, by simpa using all⟩
      change LinkedCells.setAll f (fuel + 1) heap (some a) = some later
      simp only [LinkedCells.setAll, wrote, here, Option.bind_eq_bind, Option.bind_some, walked]

end TcpCongestion.LinkedCells
