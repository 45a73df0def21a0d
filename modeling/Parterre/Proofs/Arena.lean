/-
The invariant of a run.  At every turn the queue holds the pending regions of
the arena, each once, every node but the first is the child of exactly one
node, and children stand behind their parents.  A node is pending, terminal or
expanded, and its composition and its children say the same.
-/
import Mathlib.Data.List.Nodup
import Mathlib.Data.List.Range
import Parterre.Proofs.Verdict

namespace Parterre

variable {κ α : Type}

/-- Giving children to a list element that has none adds them to the
children of the whole list. -/
theorem flatMap_set_perm {β γ : Type} {children : β → List γ} {list : List β}
    {position : Nat} {old new : β} (hold : list[position]? = some old)
    (hnone : children old = []) :
    ((list.set position new).flatMap children).Perm
      (list.flatMap children ++ children new) := by
  induction list generalizing position with
  | nil => simp at hold
  | cons first rest ih =>
      cases position with
      | zero =>
          simp only [List.getElem?_cons_zero, Option.some.injEq] at hold
          subst hold
          simp only [List.set_cons_zero, List.flatMap_cons, hnone, List.nil_append]
          exact List.perm_append_comm
      | succ position =>
          simp only [List.getElem?_cons_succ] at hold
          simp only [List.set_cons_succ, List.flatMap_cons, List.append_assoc]
          exact (ih hold).append_left _

/-- Offspring up to the number of children to decide are pending, the others
are final. -/
theorem Verdict.state_offspring {verdict : Verdict κ α} {offset depth : Nat}
    {found : Node κ α}
    (hfound : (verdict.offspring depth)[offset]? = some found) :
    found.state = .pending ↔ offset < verdict.pending.length := by
  by_cases hlt : offset < verdict.pending.length
  · rw [Verdict.offspring, List.getElem?_append_left (by simpa using hlt),
      List.getElem?_map, Option.map_eq_some_iff] at hfound
    obtain ⟨part, _, rfl⟩ := hfound
    simp [Node.pending, hlt]
  · rw [Verdict.offspring,
      List.getElem?_append_right (by simpa using Nat.le_of_not_lt hlt),
      List.getElem?_map, Option.map_eq_some_iff] at hfound
    obtain ⟨part, _, rfl⟩ := hfound
    simp [hlt]

/-- A node of the arena after a turn is an old one that is not at the front,
the settled one, or one of the offspring. -/
theorem Progress.Faces.node_turn_cases {progress : Progress κ α} {position : Nat}
    {node : Node κ α} {queue : Queue Nat} {verdict : Verdict κ α}
    (h : progress.Faces position node queue) {place : Nat} {found : Node κ α}
    (hfound : (progress.turn verdict).nodes[place]? = some found) :
    (place ≠ position ∧ place < progress.nodes.size ∧
      progress.nodes[place]? = some found) ∨
    (place = position ∧ found = verdict.settled node progress.nodes.size) ∨
    ∃ offset, place = progress.nodes.size + offset ∧
      (verdict.offspring (node.depth + 1))[offset]? = some found := by
  by_cases hlt : place < progress.nodes.size
  · by_cases heq : place = position
    · subst heq
      rw [h.getElem?_turn_self, Option.some.injEq] at hfound
      exact Or.inr (Or.inl ⟨rfl, hfound.symm⟩)
    · rw [h.getElem?_turn_of_ne verdict heq hlt] at hfound
      exact Or.inl ⟨heq, hlt, hfound⟩
  · obtain ⟨offset, rfl⟩ := Nat.exists_eq_add_of_le (Nat.le_of_not_lt hlt)
    rw [h.getElem?_turn_new] at hfound
    exact Or.inr (Or.inr ⟨offset, rfl, hfound⟩)

theorem Progress.node_start (kind : κ) (bounds : Rect α) :
    (start kind bounds).nodes[0]? = some (.pending kind bounds 0) :=
  rfl

/-- A turn moves no node and changes no rectangle. -/
theorem Progress.Faces.bounds_turn {progress : Progress κ α} {position : Nat}
    {node : Node κ α} {queue : Queue Nat} (h : progress.Faces position node queue)
    (verdict : Verdict κ α) {place : Nat} {found : Node κ α}
    (hfound : progress.nodes[place]? = some found) :
    ∃ kept, (progress.turn verdict).nodes[place]? = some kept ∧
      kept.bounds = found.bounds := by
  by_cases heq : place = position
  · subst heq
    rw [h.node, Option.some.injEq] at hfound
    subst hfound
    exact ⟨_, h.getElem?_turn_self verdict, verdict.bounds_settled ..⟩
  · have hlt := (Array.getElem?_eq_some_iff.mp hfound).1
    exact ⟨found, (h.getElem?_turn_of_ne verdict heq hlt).trans hfound, rfl⟩

variable [Scalar α]

/-- State, composition and children of a node agree. -/
inductive Node.Shaped (nodes : Array (Node κ α)) (node : Node κ α) : Prop
  | pending (hstate : node.state = .pending) (hcomposition : node.composition = none)
      (hchildren : node.children = [])
  | terminal (hstate : node.state = .terminal)
      (hcomposition : node.composition = none) (hchildren : node.children = [])
  | tiled (hstate : node.state = .expanded)
      (hcomposition : node.composition = some .tiled) (hchildren : node.children ≠ [])
  | embedded {margin : α} {first second : Nat} {frame feature : Node κ α}
      (hstate : node.state = .expanded)
      (hcomposition : node.composition = some (.embedded margin))
      (hchildren : node.children = [first, second])
      (hframe : nodes[first]? = some frame) (hbounds : frame.bounds = node.bounds)
      (hfeature : nodes[second]? = some feature)
      (hterminal : feature.state = .terminal)
      (hinset : node.bounds.inset margin = .ok feature.bounds)

/-- The invariant that ties the arena to the queue. -/
structure Progress.Orderly (progress : Progress κ α) : Prop where
  nonempty : 0 < progress.nodes.size
  /-- The queue holds no node twice. -/
  nodup_queue : progress.queue.toList.Nodup
  /-- The queue holds exactly the pending nodes. -/
  mem_queue_iff : ∀ position, position ∈ progress.queue.toList ↔
    ∃ node, progress.nodes[position]? = some node ∧ node.state = .pending
  /-- Every node but the first is in exactly one list of children. -/
  children_perm : (progress.nodes.toList.flatMap Node.children).Perm
    (List.range' 1 (progress.nodes.size - 1))
  /-- Children stand behind their parents. -/
  lt_child : ∀ (position : Nat) (node : Node κ α), progress.nodes[position]? = some node →
    ∀ child ∈ node.children, position < child
  shaped : ∀ (position : Nat) (node : Node κ α), progress.nodes[position]? = some node →
    node.Shaped progress.nodes

namespace Progress

theorem orderly_start (kind : κ) (bounds : Rect α) :
    (start kind bounds).Orderly where
  nonempty := Nat.one_pos
  nodup_queue := by simp [start]
  mem_queue_iff := by
    intro position
    simp only [start, Queue.toList_ofList, List.mem_singleton]
    constructor
    · rintro rfl
      exact ⟨_, rfl, rfl⟩
    · rintro ⟨node, hnode, _⟩
      have hlt := (Array.getElem?_eq_some_iff.mp hnode).1
      exact Nat.lt_one_iff.mp hlt
  children_perm := by simp [start, Node.pending]
  lt_child := by
    intro position node hnode child hchild
    obtain ⟨_, rfl⟩ := Array.getElem?_eq_some_iff.mp hnode
    simp [start, Node.pending] at hchild
  shaped := by
    intro position node hnode
    obtain ⟨_, rfl⟩ := Array.getElem?_eq_some_iff.mp hnode
    exact .pending (by simp [start, Node.pending]) (by simp [start, Node.pending])
      (by simp [start, Node.pending])

variable {progress : Progress κ α} {position : Nat} {node : Node κ α}
  {queue : Queue Nat} {verdict : Verdict κ α}

namespace Orderly

/-- The node at the front of the queue is pending and has no children. -/
theorem front_pending (h : progress.Orderly) (hfaces : progress.Faces position node queue) :
    node.state = .pending ∧ node.composition = none ∧ node.children = [] := by
  have hmem : position ∈ progress.queue.toList := by
    rw [hfaces.toList_queue]
    exact List.mem_cons_self
  obtain ⟨found, hfound, hpending⟩ := (h.mem_queue_iff position).mp hmem
  rw [hfaces.node, Option.some.injEq] at hfound
  subst hfound
  cases h.shaped position node hfaces.node with
  | pending hstate hcomposition hchildren =>
      exact ⟨hstate, hcomposition, hchildren⟩
  | terminal hstate | tiled hstate | embedded hstate =>
      rw [hpending] at hstate
      cases hstate

/-- A pending region in the queue means a front to work on. -/
theorem exists_faces (h : progress.Orderly)
    (hpop : progress.queue.pop? = some (position, queue)) :
    ∃ node, progress.Faces position node queue := by
  have hmem : position ∈ progress.queue.toList := by
    rw [Queue.toList_of_pop? hpop]
    exact List.mem_cons_self
  obtain ⟨node, hnode, _⟩ := (h.mem_queue_iff position).mp hmem
  exact ⟨node, hpop, hnode⟩

theorem exists_front (h : progress.Orderly) (hsome : progress.queue.toList ≠ []) :
    ∃ position node queue, progress.Faces position node queue := by
  obtain ⟨⟨position, queue⟩, hpop⟩ :=
    Option.ne_none_iff_exists'.mp (mt (Queue.pop?_eq_none_iff _).mp hsome)
  obtain ⟨node, hfaces⟩ := h.exists_faces hpop
  exact ⟨position, node, queue, hfaces⟩

theorem lt_size_of_mem_queue (h : progress.Orderly)
    (hmem : position ∈ progress.queue.toList) : position < progress.nodes.size := by
  obtain ⟨_, hnode, _⟩ := (h.mem_queue_iff position).mp hmem
  exact (Array.getElem?_eq_some_iff.mp hnode).1

theorem nodup_queue_turn (h : progress.Orderly)
    (hfaces : progress.Faces position node queue) :
    (progress.turn verdict).queue.toList.Nodup := by
  have hqueue := h.nodup_queue
  rw [hfaces.toList_queue] at hqueue
  rw [hfaces.queue_turn, List.nodup_append']
  refine ⟨hqueue.of_cons, List.nodup_range', ?_⟩
  intro place hold hnew
  have hlt : place < progress.nodes.size := by
    apply h.lt_size_of_mem_queue
    rw [hfaces.toList_queue]
    exact List.mem_cons_of_mem _ hold
  rw [List.mem_range'_1] at hnew
  omega

theorem mem_queue_turn_iff (h : progress.Orderly)
    (hfaces : progress.Faces position node queue) (place : Nat) :
    place ∈ (progress.turn verdict).queue.toList ↔
      ∃ found, (progress.turn verdict).nodes[place]? = some found ∧
        found.state = .pending := by
  have hqueue := h.nodup_queue
  rw [hfaces.toList_queue, List.nodup_cons] at hqueue
  have hmem := h.mem_queue_iff place
  rw [hfaces.toList_queue, List.mem_cons] at hmem
  rw [hfaces.queue_turn, List.mem_append, List.mem_range'_1]
  constructor
  · rintro (hold | ⟨hge, hlt⟩)
    · have hne : place ≠ position := fun heq => hqueue.1 (heq ▸ hold)
      obtain ⟨found, hfound, hpending⟩ := hmem.mp (Or.inr hold)
      have hsize := (Array.getElem?_eq_some_iff.mp hfound).1
      exact ⟨found, (hfaces.getElem?_turn_of_ne verdict hne hsize).trans hfound,
        hpending⟩
    · obtain ⟨offset, rfl⟩ := Nat.exists_eq_add_of_le hge
      have hoffset : offset < verdict.pending.length := by omega
      have hlength : offset < (verdict.offspring (node.depth + 1)).length := by
        rw [Verdict.length_offspring]
        omega
      have hfound := hfaces.getElem?_turn_new verdict offset
      rw [List.getElem?_eq_getElem hlength] at hfound
      refine ⟨_, hfound, ?_⟩
      exact (Verdict.state_offspring (List.getElem?_eq_getElem hlength)).mpr hoffset
  · rintro ⟨found, hfound, hpending⟩
    rcases hfaces.node_turn_cases hfound with
      ⟨hne, _, hold⟩ | ⟨_, rfl⟩ | ⟨offset, rfl, hnew⟩
    · exact Or.inl ((hmem.mpr ⟨found, hold, hpending⟩).resolve_left hne)
    · exact (verdict.state_settled_ne_pending _ _ hpending).elim
    · have hoffset := (Verdict.state_offspring hnew).mp hpending
      exact Or.inr ⟨Nat.le_add_right .., by omega⟩

theorem children_turn_perm (h : progress.Orderly)
    (hfaces : progress.Faces position node queue) :
    ((progress.turn verdict).nodes.toList.flatMap Node.children).Perm
      (List.range' 1 ((progress.turn verdict).nodes.size - 1)) := by
  obtain ⟨_, _, hnone⟩ := h.front_pending hfaces
  have hnode : progress.nodes.toList[position]? = some node := by
    rw [Array.getElem?_toList]
    exact hfaces.node
  have hoffspring :
      (verdict.offspring (node.depth + 1)).flatMap Node.children = [] := by
    rw [List.flatMap_eq_nil_iff]
    exact fun _ hmem => Verdict.children_of_mem_offspring hmem
  have hsize := h.nonempty
  rw [hfaces.nodes_turn, List.flatMap_append, hoffspring, List.append_nil,
    hfaces.size_turn]
  apply (flatMap_set_perm hnode hnone).trans
  rw [Verdict.children_settled verdict _ hnone]
  apply (h.children_perm.append_right _).trans
  have hfirst : 1 + (progress.nodes.size - 1) = progress.nodes.size := by omega
  have hlast : progress.nodes.size +
      (verdict.pending.length + verdict.features.length) - 1 =
        progress.nodes.size - 1 +
          (verdict.pending.length + verdict.features.length) := by omega
  rw [hlast, ← List.range'_append_1 (s := 1), hfirst]

theorem lt_child_turn (h : progress.Orderly)
    (hfaces : progress.Faces position node queue) {place : Nat} {found : Node κ α}
    (hfound : (progress.turn verdict).nodes[place]? = some found) :
    ∀ child ∈ found.children, place < child := by
  intro child hchild
  rcases hfaces.node_turn_cases hfound with
    ⟨_, _, hold⟩ | ⟨rfl, rfl⟩ | ⟨offset, rfl, hnew⟩
  · exact h.lt_child place found hold child hchild
  · obtain ⟨_, _, hnone⟩ := h.front_pending hfaces
    rw [Verdict.children_settled verdict _ hnone, List.mem_range'_1] at hchild
    exact Nat.lt_of_lt_of_le hfaces.lt_size hchild.1
  · rw [Verdict.children_of_mem_offspring (List.mem_of_getElem? hnew)] at hchild
    cases hchild

/-- What a shaped node says about its children stays true over a turn. -/
theorem shaped_mono (h : progress.Orderly)
    (hfaces : progress.Faces position node queue) {found : Node κ α}
    (hshaped : found.Shaped progress.nodes) :
    found.Shaped (progress.turn verdict).nodes := by
  cases hshaped with
  | pending hstate hcomposition hchildren =>
      exact .pending hstate hcomposition hchildren
  | terminal hstate hcomposition hchildren =>
      exact .terminal hstate hcomposition hchildren
  | tiled hstate hcomposition hchildren =>
      exact .tiled hstate hcomposition hchildren
  | @embedded margin first second frame feature hstate hcomposition hchildren
      hframe hbounds hfeature hterminal hinset =>
      obtain ⟨hpending, _, _⟩ := h.front_pending hfaces
      have hsecond : second ≠ position := by
        rintro rfl
        rw [hfaces.node, Option.some.injEq] at hfeature
        rw [← hfeature, hpending] at hterminal
        cases hterminal
      have hfeatureSize := (Array.getElem?_eq_some_iff.mp hfeature).1
      have hframeSize := (Array.getElem?_eq_some_iff.mp hframe).1
      have hfeature' := (hfaces.getElem?_turn_of_ne verdict hsecond hfeatureSize).trans
        hfeature
      by_cases hfirst : first = position
      · subst hfirst
        rw [hfaces.node, Option.some.injEq] at hframe
        subst hframe
        exact .embedded hstate hcomposition hchildren
          (hfaces.getElem?_turn_self verdict) ((verdict.bounds_settled ..).trans hbounds)
          hfeature' hterminal hinset
      · exact .embedded hstate hcomposition hchildren
          ((hfaces.getElem?_turn_of_ne verdict hfirst hframeSize).trans hframe) hbounds
          hfeature' hterminal hinset

theorem shaped_settled (h : progress.Orderly)
    (hfaces : progress.Faces position node queue) (hfits : verdict.Fits node.bounds) :
    (verdict.settled node progress.nodes.size).Shaped (progress.turn verdict).nodes := by
  obtain ⟨_, hcomposition, hchildren⟩ := h.front_pending hfaces
  cases hfits with
  | stopped kind => exact .terminal rfl hcomposition hchildren
  | final => exact .terminal rfl hcomposition hchildren
  | @tiled parts hparts =>
      apply Node.Shaped.tiled rfl rfl
      simpa [Verdict.settled] using hparts
  | @embedded frame feature margin hframe hinset =>
      have hfirst := hfaces.getElem?_turn_new
        (.expanded (.embedded frame feature margin)) 0
      have hsecond := hfaces.getElem?_turn_new
        (.expanded (.embedded frame feature margin)) 1
      exact .embedded rfl rfl rfl hfirst hframe hsecond rfl hinset

theorem shaped_turn (h : progress.Orderly)
    (hfaces : progress.Faces position node queue) (hfits : verdict.Fits node.bounds)
    {place : Nat} {found : Node κ α}
    (hfound : (progress.turn verdict).nodes[place]? = some found) :
    found.Shaped (progress.turn verdict).nodes := by
  rcases hfaces.node_turn_cases hfound with
    ⟨_, _, hold⟩ | ⟨_, rfl⟩ | ⟨offset, _, hnew⟩
  · exact h.shaped_mono hfaces (h.shaped place found hold)
  · exact h.shaped_settled hfaces hfits
  · have hmem := List.mem_of_getElem? hnew
    simp only [Verdict.offspring, List.mem_append, List.mem_map] at hmem
    rcases hmem with ⟨part, _, rfl⟩ | ⟨part, _, rfl⟩
    · exact .pending rfl rfl rfl
    · exact .terminal rfl rfl rfl

/-- One turn keeps the invariant. -/
theorem turn (h : progress.Orderly) (hfaces : progress.Faces position node queue)
    (hfits : verdict.Fits node.bounds) : (progress.turn verdict).Orderly where
  nonempty := by
    have hsize := hfaces.size_turn verdict
    have hnonempty := h.nonempty
    omega
  nodup_queue := h.nodup_queue_turn hfaces
  mem_queue_iff := h.mem_queue_turn_iff hfaces
  children_perm := h.children_turn_perm hfaces
  lt_child := fun _ _ => h.lt_child_turn hfaces
  shaped := fun _ _ => h.shaped_turn hfaces hfits

end Orderly

end Progress

namespace Engine

variable [DecidableEq κ] [RegionKind κ] {admits : α → Prop}

/-- The states that turns of the queue lead to, whatever the admitted draws. -/
inductive Reaches (engine : Engine κ α) (admits : α → Prop)
    (origin : Progress κ α) : Progress κ α → Prop
  | start : Reaches engine admits origin origin
  | turn {progress next : Progress κ α} {position : Nat} {queue : Queue Nat}
      (hreached : Reaches engine admits origin progress)
      (hpop : progress.queue.pop? = some (position, queue))
      (hnext : Sampler.Outcome admits
        (engine.advance
          { progress with queue, iterations := progress.iterations + 1 } position)
        (.ok next)) :
      Reaches engine admits origin next

theorem Reaches.trans {engine : Engine κ α} {first second third : Progress κ α}
    (hfirst : engine.Reaches admits first second)
    (hsecond : engine.Reaches admits second third) :
    engine.Reaches admits first third := by
  induction hsecond with
  | start => exact hfirst
  | turn _ hpop hnext ih => exact .turn ih hpop hnext

/-- What a turn leads to is the record of a verdict on the front. -/
theorem outcome_advance {engine : Engine κ α} {progress next : Progress κ α}
    {position : Nat} {node : Node κ α} {queue : Queue Nat}
    (hfaces : progress.Faces position node queue)
    (hnext : Sampler.Outcome admits
      (engine.advance
        { progress with queue, iterations := progress.iterations + 1 } position)
      (.ok next)) :
    ∃ verdict, Sampler.Outcome admits
        (engine.judge node.kind node.bounds node.depth) (.ok verdict) ∧
      next = progress.turn verdict := by
  simp only [advance, hfaces.node, Sampler.outcome_bind_ok_iff,
    Sampler.outcome_pure_iff, Except.ok.injEq] at hnext
  obtain ⟨verdict, hverdict, rfl⟩ := hnext
  exact ⟨verdict, hverdict, (hfaces.turn_eq verdict).symm⟩

/-- A verdict on the front leads one turn further. -/
theorem Reaches.turn_of_judge {engine : Engine κ α} {origin progress : Progress κ α}
    {position : Nat} {node : Node κ α} {queue : Queue Nat} {verdict : Verdict κ α}
    (h : engine.Reaches admits origin progress) (hfaces : progress.Faces position node queue)
    (hverdict : Sampler.Outcome admits (engine.judge node.kind node.bounds node.depth)
      (.ok verdict)) : engine.Reaches admits origin (progress.turn verdict) := by
  apply h.turn hfaces.pop
  rw [advance]
  simp only [hfaces.node, Sampler.outcome_bind_ok_iff, Sampler.outcome_pure_iff,
    Except.ok.injEq]
  exact ⟨verdict, hverdict, hfaces.turn_eq verdict⟩

/-- The invariant holds at every turn of every run. -/
theorem Reaches.orderly {engine : Engine κ α} {origin progress : Progress κ α}
    (horigin : origin.Orderly) (h : engine.Reaches admits origin progress) :
    progress.Orderly := by
  induction h with
  | start => exact horigin
  | turn _ hpop hnext ih =>
      obtain ⟨node, hfaces⟩ := ih.exists_faces hpop
      obtain ⟨verdict, hverdict, rfl⟩ := outcome_advance hfaces hnext
      exact ih.turn hfaces (fits_of_outcome hverdict)

/-- Induction over the reached states: what a verdict on the front of a state in
order hands on to the next state holds of all of them. -/
@[elab_as_elim]
theorem Reaches.induct {engine : Engine κ α} {origin : Progress κ α}
    {motive : Progress κ α → Prop} (start : motive origin)
    (turn : ∀ progress position node queue verdict, engine.Reaches admits origin progress →
      progress.Orderly → progress.Faces position node queue →
      Sampler.Outcome admits (engine.judge node.kind node.bounds node.depth) (.ok verdict) →
      motive progress → motive (progress.turn verdict))
    (horigin : origin.Orderly) {progress : Progress κ α}
    (h : engine.Reaches admits origin progress) : motive progress := by
  induction h with
  | start => exact start
  | @turn progress _ position queue hreached hpop hnext ih =>
      have horderly := hreached.orderly horigin
      obtain ⟨node, hfaces⟩ := horderly.exists_faces hpop
      obtain ⟨verdict, hverdict, rfl⟩ := outcome_advance hfaces hnext
      exact turn progress position node queue verdict hreached horderly hfaces hverdict ih

theorem Reaches.bounds {engine : Engine κ α} {origin progress : Progress κ α}
    (horigin : origin.Orderly) (h : engine.Reaches admits origin progress)
    {place : Nat} {node : Node κ α} (hnode : origin.nodes[place]? = some node) :
    ∃ kept, progress.nodes[place]? = some kept ∧ kept.bounds = node.bounds := by
  refine Reaches.induct (motive := fun progress =>
    ∃ kept, progress.nodes[place]? = some kept ∧ kept.bounds = node.bounds)
    ⟨node, hnode, rfl⟩ ?_ horigin h
  rintro progress position front queue verdict _ _ hfaces _ ⟨found, hfound, hbounds⟩
  obtain ⟨kept, hkept, hsame⟩ := hfaces.bounds_turn verdict hfound
  exact ⟨kept, hkept, hsame.trans hbounds⟩

theorem reaches_of_empty {engine : Engine κ α} {limit : Nat}
    {progress final : Progress κ α} (hempty : progress.queue.toList = [])
    (h : Sampler.Outcome admits (engine.process limit progress) (.ok (some final))) :
    engine.Reaches admits progress final ∧ final.queue.toList = [] := by
  rw [process_of_empty engine limit hempty] at h
  simp only [Sampler.outcome_pure_iff, Except.ok.injEq, Option.some.injEq] at h
  subst h
  exact ⟨.start, hempty⟩

/-- Processing that ends leads to a state with an empty queue. -/
theorem reaches_of_process {engine : Engine κ α} {limit : Nat}
    {progress final : Progress κ α}
    (h : Sampler.Outcome admits (engine.process limit progress) (.ok (some final))) :
    engine.Reaches admits progress final ∧ final.queue.toList = [] := by
  induction limit generalizing progress with
  | zero =>
      by_cases hempty : progress.queue.toList = []
      · exact reaches_of_empty hempty h
      · rw [process_zero engine hempty] at h
        simp at h
  | succ limit ih =>
      by_cases hempty : progress.queue.toList = []
      · exact reaches_of_empty hempty h
      · obtain ⟨⟨position, queue⟩, hpop⟩ :=
          Option.ne_none_iff_exists'.mp (mt (Queue.pop?_eq_none_iff _).mp hempty)
        rw [process_succ engine limit progress hpop,
          Sampler.outcome_bind_ok_iff] at h
        obtain ⟨next, hnext, hrest⟩ := h
        obtain ⟨hlater, hend⟩ := ih hrest
        exact ⟨Reaches.trans (.turn .start hpop hnext) hlater, hend⟩

end Engine

end Parterre
