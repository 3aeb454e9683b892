/-!
# Recent items

A queue of the last items of a sequence, up to a capacity.  Once it is full, the oldest
item leaves for each new one.  The queue is kept as two lists, so that both ends are at
hand: the older items with the oldest first, and the newer ones with the newest first.

Main statement: recording an item puts it behind the others, without the oldest of them
if the queue was full.
-/

namespace Z80

/-- Items in a row, in two lists that meet. -/
structure Queue (α : Type) where
  /-- The older items, the oldest first. -/
  older : List α := []
  /-- The newer items, the newest first. -/
  newer : List α := []

namespace Queue

variable {α : Type}

/-- The items, the oldest first. -/
def toList (queue : Queue α) : List α :=
  queue.older ++ queue.newer.reverse

/-- Put an item behind the others. -/
def pushBack (queue : Queue α) (item : α) : Queue α :=
  { queue with newer := item :: queue.newer }

/-- Take the oldest item away. -/
def popFront (queue : Queue α) : Queue α :=
  match queue.older with
  | _ :: rest => { queue with older := rest }
  | [] => { older := queue.newer.reverse.tail }

/-- The newest item, if there is any. -/
def back? (queue : Queue α) : Option α :=
  match queue.newer with
  | item :: _ => some item
  | [] => queue.older.getLast?

@[simp] theorem toList_pushBack (queue : Queue α) (item : α) :
    (queue.pushBack item).toList = queue.toList ++ [item] := by
  simp [pushBack, toList]

@[simp] theorem toList_popFront (queue : Queue α) :
    queue.popFront.toList = queue.toList.tail := by
  obtain ⟨older, newer⟩ := queue
  cases older <;> simp [popFront, toList]

theorem back?_eq_getLast? (queue : Queue α) : queue.back? = queue.toList.getLast? := by
  obtain ⟨older, newer⟩ := queue
  cases newer <;> simp [back?, toList]

end Queue

/-- The last items of a sequence. -/
structure Recent (α : Type) (capacity : Nat) where
  queue : Queue α := {}
  /-- The number of items in the queue. -/
  count : Nat := 0
  count_eq : count = queue.toList.length := by rfl
  count_le : count ≤ capacity := by exact Nat.zero_le _
  capacity_pos : 0 < capacity

namespace Recent

variable {α : Type} {capacity : Nat}

def empty (capacity_pos : 0 < capacity) : Recent α capacity :=
  { capacity_pos := capacity_pos }

/-- The remembered items, the oldest first. -/
def toList (recent : Recent α capacity) : List α :=
  recent.queue.toList

/-- The item recorded last. -/
def newest? (recent : Recent α capacity) : Option α :=
  recent.queue.back?

/-- Record an item.  If there is no room for it, the oldest item is forgotten. -/
def push (recent : Recent α capacity) (item : α) : Recent α capacity :=
  if full : recent.count = capacity then
    { recent with
      queue := recent.queue.popFront.pushBack item
      count_eq := by
        have positive := recent.capacity_pos
        have counted := recent.count_eq
        simp only [Queue.toList_pushBack, Queue.toList_popFront, List.length_append,
          List.length_tail, List.length_singleton]
        omega }
  else
    { queue := recent.queue.pushBack item
      count := recent.count + 1
      count_eq := by simp [recent.count_eq]
      count_le := Nat.lt_of_le_of_ne recent.count_le full
      capacity_pos := recent.capacity_pos }

@[simp] theorem toList_empty (capacity_pos : 0 < capacity) :
    (empty capacity_pos : Recent α capacity).toList = [] := rfl

theorem length_toList (recent : Recent α capacity) : recent.toList.length = recent.count :=
  recent.count_eq.symm

theorem newest?_eq_getLast? (recent : Recent α capacity) :
    recent.newest? = recent.toList.getLast? :=
  recent.queue.back?_eq_getLast?

theorem toList_push (recent : Recent α capacity) (item : α) :
    (recent.push item).toList =
      (if recent.count = capacity then recent.toList.tail else recent.toList) ++ [item] := by
  unfold push toList
  split
  · rw [Queue.toList_pushBack, Queue.toList_popFront]
  · exact recent.queue.toList_pushBack item

end Recent

end Z80
