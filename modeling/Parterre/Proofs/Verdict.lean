/-
What is decided about a region, and what one turn of the queue does with it.
A turn settles the region at the front of the queue, adds its offspring behind
the arena and queues the part of the offspring that is still to be decided.
-/
import Parterre.Engine.Levels
import Parterre.Proofs.Expansion

namespace Parterre

variable {κ α : Type}

namespace Verdict

/-- A tiling is not empty, and an embedded pair is the region and the region
without the margin. -/
inductive Fits [Scalar α] (bounds : Rect α) : Verdict κ α → Prop
  | stopped (kind : κ) : Fits bounds (.stopped kind)
  | final : Fits bounds (.expanded .final)
  | tiled {parts : List (κ × Rect α)} (hparts : parts ≠ []) :
      Fits bounds (.expanded (.tiled parts))
  | embedded {frame feature : κ × Rect α} {margin : α} (hframe : frame.2 = bounds)
      (hinset : bounds.inset margin = .ok feature.2) :
      Fits bounds (.expanded (.embedded frame feature margin))

/-- The children that are final from the start. -/
def features : Verdict κ α → List (κ × Rect α)
  | .expanded (.embedded _ feature _) => [feature]
  | _ => []

/-- The nodes of the children. -/
def offspring (verdict : Verdict κ α) (depth : Nat) : List (Node κ α) :=
  verdict.pending.map (fun part => .pending part.1 part.2 depth) ++
    verdict.features.map fun part =>
      { Node.pending part.1 part.2 depth with state := .terminal }

/-- The node of a region after the verdict, when the nodes of its children
start at a position. -/
def settled (node : Node κ α) (first : Nat) : Verdict κ α → Node κ α
  | .stopped kind => { node with kind, state := .terminal }
  | .expanded .final => { node with state := .terminal }
  | .expanded (.tiled parts) =>
      { node with
        state := .expanded
        composition := some .tiled
        children := List.range' first parts.length }
  | .expanded (.embedded _ _ margin) =>
      { node with
        state := .expanded
        composition := some (.embedded margin)
        children := [first, first + 1] }

@[simp]
theorem bounds_settled (verdict : Verdict κ α) (node : Node κ α) (first : Nat) :
    (verdict.settled node first).bounds = node.bounds := by
  rcases verdict with kind | (_ | parts | ⟨frame, feature, margin⟩) <;> rfl

theorem state_settled_ne_pending (verdict : Verdict κ α) (node : Node κ α)
    (first : Nat) : (verdict.settled node first).state ≠ .pending := by
  rcases verdict with kind | (_ | parts | ⟨frame, feature, margin⟩) <;>
    simp [settled]

@[simp]
theorem length_offspring (verdict : Verdict κ α) (depth : Nat) :
    (verdict.offspring depth).length =
      verdict.pending.length + verdict.features.length := by
  simp [offspring]

/-- The children of a settled node are its offspring. -/
theorem children_settled (verdict : Verdict κ α) {node : Node κ α} (first : Nat)
    (hnode : node.children = []) :
    (verdict.settled node first).children =
      List.range' first (verdict.pending.length + verdict.features.length) := by
  rcases verdict with kind | (_ | parts | ⟨frame, feature, margin⟩) <;>
    simp [settled, pending, features, hnode, List.range'_succ]

theorem children_of_mem_offspring {verdict : Verdict κ α} {depth : Nat}
    {node : Node κ α} (h : node ∈ verdict.offspring depth) :
    node.children = [] := by
  simp only [offspring, List.mem_append, List.mem_map] at h
  rcases h with ⟨part, _, rfl⟩ | ⟨part, _, rfl⟩ <;> rfl

end Verdict

namespace Progress

@[simp]
theorem nodes_add (progress : Progress κ α) (node : Node κ α) :
    (progress.add node).nodes = progress.nodes.push node :=
  rfl

@[simp]
theorem queue_add_pending (progress : Progress κ α) (kind : κ) (bounds : Rect α)
    (depth : Nat) :
    (progress.add (.pending kind bounds depth)).queue =
      progress.queue.push progress.nodes.size :=
  rfl

theorem nodes_foldl_add (progress : Progress κ α) (parts : List (κ × Rect α))
    (depth : Nat) :
    (parts.foldl (fun progress part => progress.add (.pending part.1 part.2 depth))
        progress).nodes.toList =
      progress.nodes.toList ++
        parts.map fun part => .pending part.1 part.2 depth := by
  induction parts generalizing progress with
  | nil => simp
  | cons part rest ih => simp [ih]

theorem queue_foldl_add (progress : Progress κ α) (parts : List (κ × Rect α))
    (depth : Nat) :
    (parts.foldl (fun progress part => progress.add (.pending part.1 part.2 depth))
        progress).queue.toList =
      progress.queue.toList ++ List.range' progress.nodes.size parts.length := by
  induction parts generalizing progress with
  | nil => simp
  | cons part rest ih => simp [ih, List.range'_succ]

/-- Recording a verdict appends the offspring and settles the node. -/
theorem nodes_record (progress : Progress κ α) (position : Nat)
    (node : Node κ α) (verdict : Verdict κ α) :
    (progress.record position node verdict).nodes.toList =
      (progress.nodes.toList ++ verdict.offspring (node.depth + 1)).set position
        (verdict.settled node progress.nodes.size) := by
  rcases verdict with kind | (_ | parts | ⟨frame, feature, margin⟩)
  · simp [record, settle, Verdict.offspring, Verdict.pending, Verdict.features,
      Verdict.settled]
  · simp [record, settle, Verdict.offspring, Verdict.pending, Verdict.features,
      Verdict.settled]
  · simp [record, divide, settle, nodes_foldl_add, Verdict.offspring,
      Verdict.pending, Verdict.features, Verdict.settled]
  · simp [record, embed, settle, add, Verdict.offspring, Verdict.pending,
      Verdict.features, Verdict.settled]

/-- Recording a verdict queues the children that are still to be decided. -/
theorem queue_record (progress : Progress κ α) (position : Nat)
    (node : Node κ α) (verdict : Verdict κ α) :
    (progress.record position node verdict).queue.toList =
      progress.queue.toList ++
        List.range' progress.nodes.size verdict.pending.length := by
  rcases verdict with kind | (_ | parts | ⟨frame, feature, margin⟩)
  · simp [record, settle, Verdict.pending]
  · simp [record, settle, Verdict.pending]
  · simp [record, divide, settle, queue_foldl_add, Verdict.pending]
  · simp [record, embed, settle, add, Node.pending, Verdict.pending]

/-- One turn: the region at the front of the queue is taken and the verdict on
it recorded. -/
def turn (progress : Progress κ α) (verdict : Verdict κ α) : Progress κ α :=
  match progress.queue.pop? with
  | none => progress
  | some (position, queue) =>
      let taken := { progress with queue, iterations := progress.iterations + 1 }
      match progress.nodes[position]? with
      | none => taken
      | some node => taken.record position node verdict

/-- The node at the front of the queue. -/
structure Faces (progress : Progress κ α) (position : Nat) (node : Node κ α)
    (queue : Queue Nat) : Prop where
  pop : progress.queue.pop? = some (position, queue)
  node : progress.nodes[position]? = some node

namespace Faces

variable {progress : Progress κ α} {position : Nat} {node : Node κ α}
  {queue : Queue Nat}

theorem toList_queue (h : progress.Faces position node queue) :
    progress.queue.toList = position :: queue.toList :=
  Queue.toList_of_pop? h.pop

theorem lt_size (h : progress.Faces position node queue) :
    position < progress.nodes.size :=
  (Array.getElem?_eq_some_iff.mp h.node).1

theorem turn_eq (h : progress.Faces position node queue)
    (verdict : Verdict κ α) :
    progress.turn verdict =
      { progress with queue, iterations := progress.iterations + 1 }.record
        position node verdict := by
  simp only [turn, h.pop, h.node]

theorem queue_turn (h : progress.Faces position node queue)
    (verdict : Verdict κ α) :
    (progress.turn verdict).queue.toList =
      queue.toList ++
        List.range' progress.nodes.size verdict.pending.length := by
  rw [h.turn_eq, queue_record]

theorem nodes_turn (h : progress.Faces position node queue)
    (verdict : Verdict κ α) :
    (progress.turn verdict).nodes.toList =
      progress.nodes.toList.set position
          (verdict.settled node progress.nodes.size) ++
        verdict.offspring (node.depth + 1) := by
  have hlt : position < progress.nodes.toList.length := h.lt_size
  rw [h.turn_eq, nodes_record, List.set_append_left _ _ hlt]

theorem size_turn (h : progress.Faces position node queue)
    (verdict : Verdict κ α) :
    (progress.turn verdict).nodes.size =
      progress.nodes.size +
        (verdict.pending.length + verdict.features.length) := by
  rw [← Array.length_toList, h.nodes_turn]
  simp

/-- The node at the front is settled. -/
theorem getElem?_turn_self (h : progress.Faces position node queue)
    (verdict : Verdict κ α) :
    (progress.turn verdict).nodes[position]? =
      some (verdict.settled node progress.nodes.size) := by
  have hlt : position < progress.nodes.toList.length := h.lt_size
  rw [← Array.getElem?_toList, h.nodes_turn,
    List.getElem?_append_left (by simpa using hlt), List.getElem?_set_self hlt]

/-- No other node of the arena changes. -/
theorem getElem?_turn_of_ne (h : progress.Faces position node queue)
    (verdict : Verdict κ α) {other : Nat} (hne : other ≠ position)
    (hlt : other < progress.nodes.size) :
    (progress.turn verdict).nodes[other]? = progress.nodes[other]? := by
  rw [← Array.getElem?_toList, h.nodes_turn,
    List.getElem?_append_left (by simpa using hlt),
    List.getElem?_set_ne hne.symm, Array.getElem?_toList]

/-- The offspring stands behind the arena. -/
theorem getElem?_turn_new (h : progress.Faces position node queue)
    (verdict : Verdict κ α) (offset : Nat) :
    (progress.turn verdict).nodes[progress.nodes.size + offset]? =
      (verdict.offspring (node.depth + 1))[offset]? := by
  rw [← Array.getElem?_toList, h.nodes_turn, List.getElem?_append_right (by simp)]
  simp

end Faces

end Progress

theorem Settings.isCapped_eq {settings : Settings κ α} {cap : Nat}
    (h : settings.maxDepth = some cap) (depth : Nat) :
    settings.isCapped depth = decide (cap ≤ depth) := by
  rw [isCapped, h]

variable [DecidableEq κ] [RegionKind κ] [Scalar α]

theorem RuleTable.rule_eq_ok_iff {table : RuleTable κ α} {kind : κ} {rule : Rule κ α} :
    table.rule kind = .ok rule ↔ table.rule? kind = some rule := by
  rw [RuleTable.rule]
  cases table.rule? kind with
  | none => simp [throw, throwThe, MonadExceptOf.throw]
  | some found => simp [pure, Except.pure]

theorem RuleTable.isTerminal_iff {table : RuleTable κ α} {kind : κ} :
    table.isTerminal kind = true ↔ table.rule? kind = some (.always .terminal) := by
  rw [isTerminal]
  split
  · rename_i hrule
    exact iff_of_true rfl hrule
  · rename_i hother
    exact iff_of_false Bool.false_ne_true hother

namespace Engine

variable {admits : α → Prop}

/-- A stopped region is too small or too deep and keeps its kind or takes one
of the safeguard; any other region is expanded by the rule of its kind. -/
theorem outcome_judge {engine : Engine κ α} {kind : κ} {bounds : Rect α}
    {depth : Nat} {verdict : Verdict κ α}
    (h : Sampler.Outcome admits (engine.judge kind bounds depth) (.ok verdict)) :
    ((engine.settings.isUndersized bounds || engine.settings.isCapped depth) = true ∧
      ∃ final, verdict = .stopped final ∧
        (if engine.keepsKind kind bounds then final = kind
          else Sampler.Outcome admits engine.settings.safeguard.draw (.ok final))) ∨
    ((engine.settings.isUndersized bounds || engine.settings.isCapped depth) = false ∧
      ∃ rule step expansion, engine.table.rule? kind = some rule ∧
        Sampler.Outcome admits (rule.settle bounds) (.ok step) ∧
        step.Gives admits bounds engine.settings.frame expansion ∧
        verdict = .expanded expansion) := by
  unfold judge at h
  split at h
  · rename_i hstopped
    left
    refine ⟨hstopped, ?_⟩
    split at h
    · rename_i hkeeps
      simp only [Sampler.outcome_pure_iff, Except.ok.injEq] at h
      exact ⟨kind, h, by simp [hkeeps]⟩
    · rename_i hkeeps
      simp only [Sampler.outcome_bind_ok_iff, Sampler.outcome_pure_iff,
        Except.ok.injEq] at h
      obtain ⟨final, hfinal, rfl⟩ := h
      exact ⟨final, rfl, by simpa [hkeeps] using hfinal⟩
  · rename_i hstopped
    right
    simp only [Sampler.outcome_bind_ok_iff, Sampler.outcome_lift_iff,
      Sampler.outcome_pure_iff, Except.ok.injEq, Rule.expand] at h
    obtain ⟨rule, hrule, expansion, ⟨step, hstep, hexpansion⟩, rfl⟩ := h
    exact ⟨Bool.eq_false_iff.mpr hstopped, rule, step, expansion,
      RuleTable.rule_eq_ok_iff.mp hrule.symm, hstep, Step.gives_of_outcome hexpansion, rfl⟩

theorem fits_of_outcome {engine : Engine κ α} {kind : κ} {bounds : Rect α}
    {depth : Nat} {verdict : Verdict κ α}
    (h : Sampler.Outcome admits (engine.judge kind bounds depth) (.ok verdict)) :
    verdict.Fits bounds := by
  rcases outcome_judge h with
    ⟨_, final, rfl, _⟩ | ⟨_, rule, step, expansion, _, _, hgives, rfl⟩
  · exact .stopped final
  · cases hgives with
    | terminal => exact .final
    | laid hlays hparts =>
        apply Verdict.Fits.tiled
        have hlength := Cut.length_of_parts hparts
        have hkinds := hlays.length_kinds
        rw [← List.length_pos_iff, List.length_zip, hlength, hkinds, Nat.min_self]
        exact Cut.arity_pos _
    | embed _ _ hinset => exact .embedded rfl hinset

theorem process_of_empty (engine : Engine κ α) (limit : Nat)
    {progress : Progress κ α} (h : progress.queue.toList = []) :
    engine.process limit progress = pure (some progress) := by
  have hpop := (Queue.pop?_eq_none_iff _).mpr h
  cases limit <;> rw [process, hpop]

theorem process_zero (engine : Engine κ α) {progress : Progress κ α}
    (h : progress.queue.toList ≠ []) : engine.process 0 progress = pure none := by
  cases hpop : progress.queue.pop? with
  | none => exact absurd ((Queue.pop?_eq_none_iff _).mp hpop) h
  | some front => rw [process, hpop]

/-- Processing that is over is the same with more regions to spend. -/
theorem process_of_le {σ : Type} [DrawSource σ α] {engine : Engine κ α} {limit more : Nat}
    (hle : limit ≤ more) {progress : Progress κ α} {source after : σ}
    {result : Except (LayoutError α) (Option (Progress κ α))}
    (h : (engine.process limit progress).run source = (result, after))
    (hover : result ≠ .ok none) :
    (engine.process more progress).run source = (result, after) := by
  induction limit generalizing more progress source with
  | zero =>
      by_cases hempty : progress.queue.toList = []
      · rw [process_of_empty engine _ hempty] at h ⊢
        exact h
      · rw [process_zero engine hempty] at h
        cases h
        exact absurd rfl hover
  | succ limit ih =>
      by_cases hempty : progress.queue.toList = []
      · rw [process_of_empty engine _ hempty] at h ⊢
        exact h
      · obtain ⟨⟨position, queue⟩, hpop⟩ :=
          Option.ne_none_iff_exists'.mp (mt (Queue.pop?_eq_none_iff _).mp hempty)
        obtain ⟨more, rfl⟩ := Nat.exists_eq_add_of_lt hle
        rw [process_succ engine _ _ hpop, Sampler.run_bind] at h ⊢
        split at h
        · exact ih (Nat.le_add_right _ _) h
        · exact h

/-- Processing decides about the region at the front of the queue and goes on
after the turn. -/
theorem process_turn (engine : Engine κ α) (limit : Nat)
    {progress : Progress κ α} {position : Nat} {node : Node κ α}
    {queue : Queue Nat} (h : progress.Faces position node queue) :
    engine.process (limit + 1) progress =
      engine.judge node.kind node.bounds node.depth >>= fun verdict =>
        engine.process limit (progress.turn verdict) := by
  rw [process_succ engine limit progress h.pop, advance]
  simp only [h.node, bind_assoc, pure_bind, h.turn_eq]

end Engine

end Parterre
