/-
First in, first out.  New elements wait in reverse order until the front is
used up.
-/

namespace Parterre

/-- A queue; `toList` is its contents, the oldest first. -/
structure Queue (β : Type) where
  front : List β
  back : List β

namespace Queue

variable {β : Type}

def toList (queue : Queue β) : List β :=
  queue.front ++ queue.back.reverse

def ofList (elements : List β) : Queue β :=
  ⟨elements, []⟩

def push (queue : Queue β) (element : β) : Queue β :=
  ⟨queue.front, element :: queue.back⟩

/-- The oldest element and the queue without it. -/
def pop? (queue : Queue β) : Option (β × Queue β) :=
  match queue.front with
  | element :: rest => some (element, ⟨rest, queue.back⟩)
  | [] =>
      match queue.back.reverse with
      | [] => none
      | element :: rest => some (element, ⟨rest, []⟩)

@[simp]
theorem toList_ofList (elements : List β) :
    (ofList elements).toList = elements := by
  simp [ofList, toList]

@[simp]
theorem toList_push (queue : Queue β) (element : β) :
    (queue.push element).toList = queue.toList ++ [element] := by
  simp [push, toList]

theorem pop?_eq_none_iff (queue : Queue β) :
    queue.pop? = none ↔ queue.toList = [] := by
  obtain ⟨front, back⟩ := queue
  cases front with
  | cons element rest => simp [pop?, toList]
  | nil =>
      cases h : back.reverse with
      | nil => simp [pop?, toList, h]
      | cons element rest => simp [pop?, toList, h]

theorem toList_of_pop? {queue rest : Queue β} {element : β}
    (h : queue.pop? = some (element, rest)) :
    queue.toList = element :: rest.toList := by
  obtain ⟨front, back⟩ := queue
  cases front with
  | cons first others =>
      simp only [pop?, Option.some.injEq, Prod.mk.injEq] at h
      obtain ⟨rfl, rfl⟩ := h
      simp [toList]
  | nil =>
      cases hback : back.reverse with
      | nil => simp [pop?, hback] at h
      | cons first others =>
          simp only [pop?, hback, Option.some.injEq, Prod.mk.injEq] at h
          obtain ⟨rfl, rfl⟩ := h
          simp [toList, hback]

end Queue

end Parterre
