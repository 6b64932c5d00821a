/- Blocks of memory that are allocated and freed, and who owns them. -/

import Mathlib.Algebra.BigOperators.Group.Multiset.Basic
import Mathlib.Data.Finset.Erase
import Mathlib.Data.Finset.Insert

/-!
A heap knows which blocks are allocated. Freeing or touching any other block is an error that
ends the program. A program runs from the blocks that it is given to those that go with its
result; blocks that it does not know stay as they are.
-/

set_option autoImplicit false
set_option relaxedAutoImplicit false

namespace StreamDataPipeline.Foundations.OwnedBlocks

/-- `next` has not been handed out yet; `asked` and `left` count the requests of the program and
the choices that were left open. -/
structure Heap where
  live : Finset Nat
  next : Nat
  asked : Nat
  left : Nat
  deriving DecidableEq

def emptyHeap : Heap := ⟨∅, 0, 0, 0⟩

/-- What the program does not decide: which of its requests are granted, and what becomes of the
choices that are left open. -/
structure World where
  grants : Nat → Bool
  chooses : Nat → Bool

/-- A program by what it does to memory, what it requests and what it leaves open. -/
inductive HeapM (α : Type) : Type
  | done (a : α)
  | error
  | access (b : Nat) (rest : HeapM α)
  | release (b : Nat) (rest : HeapM α)
  | allocate (rest : Nat → HeapM α)
  | ask (rest : Bool → HeapM α)
  | leave (rest : Bool → HeapM α)

def HeapM.bind {α β : Type} : HeapM α → (α → HeapM β) → HeapM β
  | .done a, next => next a
  | .error, _ => .error
  | .access b rest, next => .access b (rest.bind next)
  | .release b rest, next => .release b (rest.bind next)
  | .allocate rest, next => .allocate fun b => (rest b).bind next
  | .ask rest, next => .ask fun given => (rest given).bind next
  | .leave rest, next => .leave fun chosen => (rest chosen).bind next

instance heapMonad : Monad HeapM where
  pure := .done
  bind := .bind

/-- `none` is the error. -/
def HeapM.run {α : Type} (world : World) : HeapM α → Heap → Option (α × Heap)
  | .done a, h => some (a, h)
  | .error, _ => none
  | .access b rest, h => if b ∈ h.live then rest.run world h else none
  | .release b rest, h =>
      if b ∈ h.live then rest.run world { h with live := h.live.erase b } else none
  | .allocate rest, h =>
      (rest h.next).run world { h with live := insert h.next h.live, next := h.next + 1 }
  | .ask rest, h => (rest (world.grants h.asked)).run world { h with asked := h.asked + 1 }
  | .leave rest, h => (rest (world.chooses h.left)).run world { h with left := h.left + 1 }

/-- A pointer to the start of a block, or the null pointer. -/
abbrev Pointer := Option Nat

/-- An access through a pointer. -/
def touch : Pointer → HeapM Unit
  | none => .error
  | some b => .access b (.done ())

def free : Pointer → HeapM Unit
  | none => .done ()
  | some b => .release b (.done ())

def newBlock : HeapM Nat := .allocate .done

/-- Whether the outside does what the program requests. -/
def ask : HeapM Bool := .ask .done

def leftOpen : HeapM Bool := .leave .done

def malloc : HeapM Pointer := do
  if ← ask then
    let b ← newBlock
    pure (some b)
  else pure none

/-- A block that grows is moved; where there is no room it stays. -/
def realloc (p : Pointer) : HeapM Pointer := do
  match ← malloc with
  | none => pure none
  | some moved => do
      free p
      pure (some moved)

/-- A buffer that more is put into: the pointer, and whether there is room now. Whether there is
room in it as it is, or it has to grow, is left open. -/
def makeRoom (data : Pointer) : HeapM (Pointer × Bool) := do
  if data.isSome && (← leftOpen) then pure (data, true)
  else match ← realloc data with
    | none => pure (data, false)
    | some moved => pure (some moved, true)

/-- The block behind a pointer. -/
def blocks (p : Pointer) : Multiset Nat := (p.toList : Multiset Nat)

@[simp] theorem blocks_none : blocks none = 0 := rfl

@[simp] theorem blocks_some (b : Nat) : blocks (some b) = {b} := rfl

section Slots

variable {γ : Type} (owns : γ → Multiset Nat)

/-- The blocks of the entries of an array; an empty slot has none. -/
def held (slots : List (Option γ)) : Multiset Nat := (slots.map fun slot => slot.elim 0 owns).sum

@[simp] theorem held_nil : held owns [] = 0 := rfl

@[simp] theorem held_cons (slot : Option γ) (rest : List (Option γ)) :
    held owns (slot :: rest) = slot.elim 0 owns + held owns rest := by
  rw [held, List.map_cons, List.sum_cons, held]

@[simp] theorem held_replicate (n : Nat) : held owns (List.replicate n none) = 0 := by
  induction n with
  | zero => rfl
  | succ n ih => rw [List.replicate_succ, held_cons, ih, Option.elim_none, zero_add]

theorem held_set {slots : List (Option γ)} {i : Nat} {old : Option γ} (here : slots[i]? = some old)
    (new : Option γ) :
    held owns (slots.set i new) + old.elim 0 owns = held owns slots + new.elim 0 owns := by
  induction slots generalizing i with
  | nil => simp at here
  | cons slot rest ih =>
      cases i with
      | zero =>
          obtain rfl : slot = old := by simpa using here
          rw [List.set_cons_zero, held_cons, held_cons, add_assoc, add_comm (held owns rest),
            add_comm]
      | succ i =>
          rw [List.set_cons_succ, held_cons, held_cons, add_assoc, ih (by simpa using here),
            add_assoc]

theorem held_set_empty {slots : List (Option γ)} {i : Nat} (empty : slots[i]? = some none)
    (new : γ) : held owns (slots.set i (some new)) = owns new + held owns slots := by
  have stored := held_set owns empty (some new)
  rwa [Option.elim_none, add_zero, Option.elim_some, add_comm] at stored

theorem mem_held {slots : List (Option γ)} {entry : γ} (mem : some entry ∈ slots) {b : Nat}
    (owned : b ∈ owns entry) : b ∈ held owns slots := by
  induction slots with
  | nil => cases mem
  | cons slot rest ih =>
      rw [held_cons, Multiset.mem_add]
      rcases List.mem_cons.mp mem with rfl | later
      · exact .inl owned
      · exact .inr (ih later)

end Slots

def Valid (h : Heap) : Prop := ∀ b ∈ h.live, b < h.next

theorem HeapM.run_bind {α β : Type} (world : World) (first : HeapM α) (rest : α → HeapM β)
    (h : Heap) :
    (first >>= rest).run world h =
      (first.run world h).bind fun ended => (rest ended.1).run world ended.2 := by
  change (first.bind rest).run world h = _
  induction first generalizing h with
  | done a => rfl
  | error => rfl
  | access b next ih =>
      rw [HeapM.bind, HeapM.run, HeapM.run]
      split_ifs
      · exact ih h
      · rfl
  | release b next ih =>
      rw [HeapM.bind, HeapM.run, HeapM.run]
      split_ifs
      · exact ih _
      · rfl
  | allocate next ih => exact ih _ _
  | ask next ih => exact ih _ _
  | leave next ih => exact ih _ _

/-- The world with all later requests granted. -/
def World.upTo (world : World) (asked : Nat) : World :=
  { world with grants := fun n => decide (asked ≤ n) || world.grants n }

/-- A run only depends on the requests that it makes. -/
theorem HeapM.run_upTo {α : Type} {world : World} {program : HeapM α} {h h' : Heap} {a : α}
    (ran : program.run world h = some (a, h')) :
    h.asked ≤ h'.asked ∧
      ∀ asked, h'.asked ≤ asked → program.run (world.upTo asked) h = some (a, h') := by
  induction program generalizing h with
  | done b =>
      cases ran
      exact ⟨le_rfl, fun _ _ => rfl⟩
  | error => cases ran
  | access b next ih =>
      rw [HeapM.run] at ran
      split_ifs at ran with inside
      obtain ⟨later, same⟩ := ih ran
      exact ⟨later, fun asked above => (if_pos inside).trans (same asked above)⟩
  | release b next ih =>
      rw [HeapM.run] at ran
      split_ifs at ran with inside
      obtain ⟨later, same⟩ := ih ran
      exact ⟨later, fun asked above => (if_pos inside).trans (same asked above)⟩
  | allocate next ih => exact ih _ ran
  | ask next ih =>
      obtain ⟨later, same⟩ := ih _ ran
      refine ⟨Nat.le_of_succ_le later, fun asked above => ?_⟩
      have early : ¬ asked ≤ h.asked := Nat.not_le_of_lt (lt_of_lt_of_le later above)
      have given : (world.upTo asked).grants h.asked = world.grants h.asked := by
        simp [World.upTo, early]
      rw [HeapM.run, given]
      exact same asked above
  | leave next ih => exact ih _ ran

/-- One of the first requests is refused. -/
def World.Refuses (world : World) (asked : Nat) : Prop := ∃ n < asked, world.grants n = false

/-- Some request would be refused. -/
def Refused (world : World) : Prop := ∃ n, world.grants n = false

theorem refused_upTo (world : World) (asked : Nat) :
    Refused (world.upTo asked) ↔ world.Refuses asked := by
  refine exists_congr fun n => ?_
  simp [World.upTo]

variable {α β : Type} {world : World}

/-- Given these blocks, the program ends without an error, with the blocks that go with its
result. -/
def Runs (world : World) (before : Multiset Nat) (program : HeapM α) (after : α → Multiset Nat)
    (post : α → Prop) : Prop :=
  ∀ h frame, Valid h → h.live.val = before + frame →
    ∃ a h', program.run world h = some (a, h') ∧ Valid h' ∧ h'.live.val = after a + frame ∧ post a

theorem Runs.pure {before : Multiset Nat} {a : α} {after : α → Multiset Nat} {post : α → Prop}
    (owned : before = after a) (holds : post a) : Runs world before (pure a) after post :=
  fun h _ valid live => ⟨a, h, rfl, valid, owned ▸ live, holds⟩

theorem Runs.bind {before : Multiset Nat} {first : HeapM α} {mid : α → Multiset Nat}
    {between : α → Prop} {rest : α → HeapM β} {after : β → Multiset Nat} {post : β → Prop}
    (head : Runs world before first mid between)
    (tail : ∀ a, between a → Runs world (mid a) (rest a) after post) :
    Runs world before (first >>= rest) after post := by
  intro h frame valid live
  obtain ⟨a, h', ran, valid', live', holds⟩ := head h frame valid live
  obtain ⟨b, h'', ran', rest'⟩ := tail a holds h' frame valid' live'
  refine ⟨b, h'', ?_, rest'⟩
  rw [HeapM.run_bind, ran]
  exact ran'

theorem Runs.frame {before : Multiset Nat} {program : HeapM α} {after : α → Multiset Nat}
    {post : α → Prop} (runs : Runs world before program after post) (others : Multiset Nat) :
    Runs world (before + others) program (fun a => after a + others) post := by
  intro h frame valid live
  rw [add_assoc] at live
  obtain ⟨a, h', ran, valid', live', holds⟩ := runs h (others + frame) valid live
  exact ⟨a, h', ran, valid', by rw [live', add_assoc], holds⟩

theorem Runs.weaken {before before' : Multiset Nat} {program : HeapM α}
    {after after' : α → Multiset Nat} {post post' : α → Prop}
    (runs : Runs world before program after post) (start : before' = before)
    (finish : ∀ a, post a → after a = after' a ∧ post' a) :
    Runs world before' program after' post' := by
  intro h frame valid live
  obtain ⟨a, h', ran, valid', live', holds⟩ := runs h frame valid (start ▸ live)
  obtain ⟨same, holds'⟩ := finish a holds
  exact ⟨a, h', ran, valid', same ▸ live', holds'⟩

/-- The first program takes some of the blocks, and the rest of them wait. -/
theorem Runs.then {before used others : Multiset Nat} {first : HeapM α} {mid : α → Multiset Nat}
    {between : α → Prop} {rest : α → HeapM β} {after : β → Multiset Nat} {post : β → Prop}
    (head : Runs world used first mid between) (split : before = used + others)
    (tail : ∀ a, between a → Runs world (mid a + others) (rest a) after post) :
    Runs world before (first >>= rest) after post :=
  split ▸ (head.frame others).bind tail

theorem Runs.ite {before : Multiset Nat} {p : Prop} [Decidable p] {yes no : HeapM α}
    {after : α → Multiset Nat} {post : α → Prop} (holds : p → Runs world before yes after post)
    (fails : ¬ p → Runs world before no after post) :
    Runs world before (if p then yes else no) after post := by
  split_ifs with h
  · exact holds h
  · exact fails h

theorem ask_runs : Runs world 0 ask (fun _ => 0) fun given => given = false → Refused world :=
  fun h _ valid live =>
    ⟨_, { h with asked := h.asked + 1 }, rfl, valid, live, fun no => ⟨h.asked, no⟩⟩

theorem leftOpen_runs : Runs world 0 leftOpen (fun _ => 0) fun _ => True :=
  fun h _ valid live => ⟨_, { h with left := h.left + 1 }, rfl, valid, live, trivial⟩

theorem newBlock_runs : Runs world 0 newBlock (fun b => {b}) fun _ => True := by
  intro h frame valid live
  rw [zero_add] at live
  have fresh : h.next ∉ h.live := fun mem => absurd (valid _ mem) (Nat.lt_irrefl _)
  refine ⟨h.next, { h with live := insert h.next h.live, next := h.next + 1 }, rfl, ?_, ?_, trivial⟩
  · intro b mem
    rcases Finset.mem_insert.mp mem with rfl | old
    · exact Nat.lt_succ_self _
    · exact (valid b old).trans (Nat.lt_succ_self _)
  · rw [Finset.insert_val_of_notMem fresh, live]
    rfl

theorem malloc_runs :
    Runs world 0 malloc blocks fun p => p = none → Refused world := by
  refine ask_runs.bind fun given no => ?_
  refine .ite (fun _ => ?_) fun refused => .pure rfl fun _ => no (Bool.not_eq_true _ ▸ refused)
  exact newBlock_runs.bind fun b _ => .pure rfl nofun

theorem free_runs (p : Pointer) : Runs world (blocks p) (free p) (fun _ => 0) fun _ => True := by
  intro h frame valid live
  cases p with
  | none => exact ⟨(), h, rfl, valid, live, trivial⟩
  | some b =>
      have mem : b ∈ h.live := by
        rw [← Finset.mem_val, live]
        simp
      refine ⟨(), { h with live := h.live.erase b }, if_pos mem, ?_, ?_, trivial⟩
      · exact fun other there => valid other (Finset.mem_of_mem_erase there)
      · rw [Finset.erase_val, live]
        simp

theorem touch_runs {before : Multiset Nat} {b : Nat} (owned : b ∈ before) :
    Runs world before (touch (some b)) (fun _ => before) fun _ => True := by
  intro h frame valid live
  have mem : b ∈ h.live := by
    rw [← Finset.mem_val, live]
    exact Multiset.mem_add.mpr (.inl owned)
  exact ⟨(), h, if_pos mem, valid, live, trivial⟩

theorem realloc_runs (p : Pointer) :
    Runs world (blocks p) (realloc p) (fun moved => blocks (moved.or p))
      fun moved => moved = none → Refused world := by
  refine malloc_runs.then (zero_add _).symm fun moved no => ?_
  cases moved with
  | none => exact .pure (by simp) fun _ => no rfl
  | some b =>
      refine (free_runs p).then (add_comm _ _) fun _ _ => ?_
      exact .pure (by simp) nofun

theorem makeRoom_runs (data : Pointer) :
    Runs world (blocks data) (makeRoom data) (fun result => blocks result.1)
      fun result => (result.2 = true → result.1.isSome) ∧
        (result.2 = false → Refused world) := by
  refine leftOpen_runs.then (zero_add _).symm fun fits _ => ?_
  rw [zero_add]
  refine .ite (fun room => ?_) fun _ => ?_
  · exact .pure rfl ⟨fun _ => (Bool.and_eq_true_iff.mp room).1, nofun⟩
  refine (realloc_runs data).bind fun moved no => ?_
  cases moved with
  | none => exact .pure rfl ⟨nofun, fun _ => no rfl⟩
  | some b => exact .pure rfl ⟨fun _ => rfl, nofun⟩

theorem touches_runs {before : Multiset Nat} {pointers : List Pointer}
    (owned : ∀ p ∈ pointers, ∃ b ∈ before, p = some b) :
    Runs world before (pointers.forM touch) (fun _ => before) fun _ => True := by
  induction pointers with
  | nil => exact .pure rfl trivial
  | cons p rest ih =>
      obtain ⟨b, mem, rfl⟩ := owned p List.mem_cons_self
      refine (touch_runs mem).bind fun _ _ => ih fun q there => ?_
      exact owned q (List.mem_cons_of_mem _ there)

/-- What a program comes to that owns nothing before, by the requests that it has made. -/
theorem Runs.closed {program : HeapM α} {after : α → Multiset Nat} {post : Prop → α → Prop}
    (runs : ∀ world, Runs world 0 program after (post (Refused world))) (world : World) :
    ∃ a h, program.run world emptyHeap = some (a, h) ∧ h.live.val = after a ∧
      post (world.Refuses h.asked) a := by
  obtain ⟨a, h, ran, -, live, -⟩ := runs world emptyHeap 0 (by simp [Valid, emptyHeap]) rfl
  have sameRun := (HeapM.run_upTo ran).2 h.asked le_rfl
  obtain ⟨a', h', ran', -, -, holds⟩ :=
    runs (world.upTo h.asked) emptyHeap 0 (by simp [Valid, emptyHeap]) rfl
  obtain ⟨rfl, rfl⟩ := Prod.mk.inj (Option.some.inj (sameRun.symm.trans ran'))
  rw [add_zero] at live
  exact ⟨a, h, ran, live, (propext (refused_upTo world h.asked)) ▸ holds⟩

end StreamDataPipeline.Foundations.OwnedBlocks
