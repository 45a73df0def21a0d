/-
One level of the queue.  The regions of one depth stand in the queue in order
and their pending children queue up behind them, so working off the level
decides about its regions from left to right and leaves the next level in the
queue.
-/
import Parterre.Proofs.Placement

namespace Parterre

variable {κ α : Type}

namespace Progress

/-- The queue holds positions of the arena, none twice. -/
structure Queued (progress : Progress κ α) : Prop where
  nodup : progress.queue.toList.Nodup
  lt_size : ∀ position ∈ progress.queue.toList, position < progress.nodes.size

/-- The node stands at the position and is not queued. -/
def Holds (progress : Progress κ α) (position : Nat) (node : Node κ α) : Prop :=
  progress.nodes[position]? = some node ∧ position ∉ progress.queue.toList

/-- Nodes that are not queued stay as they are. -/
def Keeps (progress later : Progress κ α) : Prop :=
  ∀ position node, progress.Holds position node → later.Holds position node

/-- The regions wait at the positions, in order. -/
def Awaits (progress : Progress κ α) (depth : Nat) :
    List Nat → List (κ × Rect α) → Prop :=
  List.Forall₂ fun position region =>
    progress.nodes[position]? = some (.pending region.1 region.2 depth)

theorem Keeps.refl (progress : Progress κ α) : progress.Keeps progress :=
  fun _ _ h => h

theorem Keeps.trans {first second third : Progress κ α} (h : first.Keeps second)
    (h' : second.Keeps third) : first.Keeps third :=
  fun position node hnode => h' position node (h position node hnode)

variable {progress : Progress κ α} {position : Nat} {node : Node κ α}
  {queue : Queue Nat}

namespace Faces

theorem keeps_turn (h : progress.Faces position node queue) (verdict : Verdict κ α) :
    progress.Keeps (progress.turn verdict) := by
  rintro place found ⟨hfound, hmem⟩
  have hlt := (Array.getElem?_eq_some_iff.mp hfound).1
  rw [h.toList_queue, List.mem_cons, not_or] at hmem
  refine ⟨(h.getElem?_turn_of_ne verdict hmem.1 hlt).trans hfound, ?_⟩
  rw [h.queue_turn, List.mem_append, List.mem_range'_1]
  rintro (hold | hnew)
  · exact hmem.2 hold
  · omega

/-- The pending children wait at the end of the arena. -/
theorem awaits_pending (h : progress.Faces position node queue)
    (verdict : Verdict κ α) :
    (progress.turn verdict).Awaits (node.depth + 1)
      (List.range' progress.nodes.size verdict.pending.length) verdict.pending := by
  rw [Awaits, List.forall₂_iff_get]
  refine ⟨by simp, fun offset hlt hpart => ?_⟩
  rw [List.get_eq_getElem, List.getElem_range', Nat.one_mul,
    h.getElem?_turn_new, Verdict.offspring,
    List.getElem?_append_left (by simpa using hpart), List.getElem?_map,
    List.getElem?_eq_getElem hpart]
  rfl

end Faces

theorem queued_start (kind : κ) (bounds : Rect α) :
    (Progress.start kind bounds).Queued := by
  constructor <;> simp [Progress.start]

theorem awaits_start (kind : κ) (bounds : Rect α) :
    (Progress.start kind bounds).Awaits 0 [0] [(kind, bounds)] :=
  .cons rfl .nil

namespace Queued

theorem not_mem_rest (h : progress.Queued)
    (hfaces : progress.Faces position node queue) : position ∉ queue.toList := by
  have hnodup := h.nodup
  rw [hfaces.toList_queue, List.nodup_cons] at hnodup
  exact hnodup.1

theorem turn (h : progress.Queued) (hfaces : progress.Faces position node queue)
    (verdict : Verdict κ α) : (progress.turn verdict).Queued := by
  obtain ⟨hnodup, hsize⟩ := h
  rw [hfaces.toList_queue, List.nodup_cons] at hnodup
  rw [hfaces.toList_queue, List.forall_mem_cons] at hsize
  constructor
  · rw [hfaces.queue_turn, List.nodup_append']
    refine ⟨hnodup.2, List.nodup_range', fun place hold hnew => ?_⟩
    have hlt := hsize.2 place hold
    rw [List.mem_range'_1] at hnew
    omega
  · intro place hmem
    rw [hfaces.queue_turn, List.mem_append, List.mem_range'_1] at hmem
    rw [hfaces.size_turn]
    rcases hmem with hold | hnew
    · have hlt := hsize.2 place hold
      omega
    · omega

/-- The region at the front is settled by its turn. -/
theorem holds_settled (h : progress.Queued)
    (hfaces : progress.Faces position node queue) (verdict : Verdict κ α) :
    (progress.turn verdict).Holds position
      (verdict.settled node progress.nodes.size) := by
  refine ⟨hfaces.getElem?_turn_self verdict, ?_⟩
  have hlt := hfaces.lt_size
  rw [hfaces.queue_turn, List.mem_append, List.mem_range'_1]
  rintro (hold | hnew)
  · exact h.not_mem_rest hfaces hold
  · omega

/-- The children that are final from the start stand behind those that are
queued. -/
theorem holds_feature (h : progress.Queued)
    (hfaces : progress.Faces position node queue) {verdict : Verdict κ α}
    {offset : Nat} {part : κ × Rect α}
    (hpart : verdict.features[offset]? = some part) :
    (progress.turn verdict).Holds
      (progress.nodes.size + (verdict.pending.length + offset))
      { Node.pending part.1 part.2 (node.depth + 1) with state := .terminal } := by
  constructor
  · rw [hfaces.getElem?_turn_new, Verdict.offspring,
      List.getElem?_append_right (by simp)]
    simp [hpart]
  · rw [hfaces.queue_turn, List.mem_append, List.mem_range'_1]
    rintro (hold | hnew)
    · have hlt := h.lt_size _ (hfaces.toList_queue ▸ List.mem_cons_of_mem _ hold)
      omega
    · omega

/-- The regions behind the front go on waiting. -/
theorem awaits_turn (h : progress.Queued)
    (hfaces : progress.Faces position node queue) (verdict : Verdict κ α)
    {depth : Nat} {positions : List Nat} {regions : List (κ × Rect α)}
    (hwait : progress.Awaits depth positions regions)
    (hmem : ∀ place ∈ positions, place ∈ queue.toList) :
    (progress.turn verdict).Awaits depth positions regions := by
  induction hwait with
  | nil => exact .nil
  | cons hfirst _ ih =>
      rw [List.forall_mem_cons] at hmem
      refine .cons ?_ (ih hmem.2)
      have hne := ne_of_mem_of_not_mem hmem.1 (h.not_mem_rest hfaces)
      have hlt := (Array.getElem?_eq_some_iff.mp hfirst).1
      exact (hfaces.getElem?_turn_of_ne verdict hne hlt).trans hfirst

end Queued

/-- The first of the waiting regions is at the front of the queue. -/
theorem exists_faces_of_awaits {depth : Nat} {positions next : List Nat}
    {region : κ × Rect α} {rest : List (κ × Rect α)}
    (hqueue : progress.queue.toList = positions ++ next)
    (hwait : progress.Awaits depth positions (region :: rest)) :
    ∃ position others queue, positions = position :: others ∧
      progress.Faces position (.pending region.1 region.2 depth) queue ∧
      queue.toList = others ++ next ∧ progress.Awaits depth others rest := by
  obtain ⟨position, others, hnode, hothers, rfl⟩ :=
    List.forall₂_cons_right_iff.mp hwait
  obtain ⟨⟨front, queue⟩, hpop⟩ : ∃ taken, progress.queue.pop? = some taken := by
    rw [← Option.ne_none_iff_exists', ne_eq, Queue.pop?_eq_none_iff, hqueue]
    simp
  have hlist := Queue.toList_of_pop? hpop
  rw [hqueue, List.cons_append, List.cons.injEq] at hlist
  obtain ⟨rfl, hlist⟩ := hlist
  exact ⟨position, others, queue, rfl, ⟨hpop, hnode⟩, hlist.symm, hothers⟩

/-- Each region of a level is settled and holds its features, and its pending
children are the next ones of the level below. -/
inductive Decided (progress : Progress κ α) (depth : Nat) :
    List Nat → List (Judged κ α) → List Nat → Prop
  | nil : Decided progress depth [] [] []
  | cons {position first : Nat} {positions : List Nat} {region : Judged κ α}
      {rest : List (Judged κ α)} {fresh : List Nat}
      (hsettled : progress.Holds position
        (region.verdict.settled (.pending region.kind region.bounds depth) first))
      (hfeatures : ∀ offset part, region.verdict.features[offset]? = some part →
        progress.Holds (first + (region.verdict.pending.length + offset))
          { Node.pending part.1 part.2 (depth + 1) with state := .terminal })
      (hrest : Decided progress depth positions rest fresh) :
      Decided progress depth (position :: positions) (region :: rest)
        (List.range' first region.verdict.pending.length ++ fresh)

theorem Decided.mono {later : Progress κ α} {depth : Nat} {positions fresh : List Nat}
    {judged : List (Judged κ α)} (h : progress.Decided depth positions judged fresh)
    (hkeeps : progress.Keeps later) : later.Decided depth positions judged fresh := by
  induction h with
  | nil => exact .nil
  | cons hsettled hfeatures _ ih =>
      exact .cons (hkeeps _ _ hsettled)
        (fun offset part hpart => hkeeps _ _ (hfeatures offset part hpart)) ih

/-- The state after a level. -/
def afterLevel (progress : Progress κ α) (judged : List (Judged κ α)) :
    Progress κ α :=
  judged.foldl (fun progress region => progress.turn region.verdict) progress

/-- Working off a level settles its regions, leaves their pending children in
the queue behind what was queued after the level, and lets everything queued
after the level go on waiting. -/
theorem Queued.afterLevel {depth : Nat} {positions next : List Nat}
    {judged : List (Judged κ α)} (h : progress.Queued)
    (hqueue : progress.queue.toList = positions ++ next)
    (hwait : progress.Awaits depth positions
      (judged.map fun region => (region.kind, region.bounds))) :
    ∃ fresh, (progress.afterLevel judged).queue.toList = next ++ fresh ∧
      (progress.afterLevel judged).Queued ∧
      progress.Keeps (progress.afterLevel judged) ∧
      (progress.afterLevel judged).Decided depth positions judged fresh ∧
      (progress.afterLevel judged).Awaits (depth + 1) fresh
        (judged.flatMap fun region => region.verdict.pending) ∧
      ∀ other places regions, (∀ place ∈ places, place ∈ next) →
        progress.Awaits other places regions →
          (progress.afterLevel judged).Awaits other places regions := by
  induction judged generalizing progress positions next with
  | nil =>
      cases hwait
      refine ⟨[], ?_, h, .refl _, .nil, .nil, fun _ _ _ _ hplaces => hplaces⟩
      rw [List.append_nil]
      exact hqueue
  | cons region rest ih =>
      obtain ⟨position, others, queue, rfl, hfaces, hlist, hothers⟩ :=
        exists_faces_of_awaits hqueue hwait
      have hnew := hfaces.awaits_pending region.verdict
      obtain ⟨fresh, hfresh, hqueued, hkeeps, hdecided, hawaits, hstill⟩ :=
        ih (h.turn hfaces region.verdict)
          (by rw [hfaces.queue_turn, hlist, List.append_assoc])
          (h.awaits_turn hfaces region.verdict hothers fun place hmem =>
            hlist.symm ▸ List.mem_append_left _ hmem)
      refine ⟨List.range' progress.nodes.size region.verdict.pending.length ++ fresh,
        ?_, hqueued, (hfaces.keeps_turn region.verdict).trans hkeeps, ?_, ?_, ?_⟩
      · rw [← List.append_assoc]
        exact hfresh
      · refine .cons (hkeeps _ _ (h.holds_settled hfaces region.verdict)) ?_ hdecided
        intro offset part hpart
        exact hkeeps _ _ (h.holds_feature hfaces hpart)
      · exact List.rel_append
          (hstill _ _ _ (fun place hmem => List.mem_append_right _ hmem) hnew) hawaits
      · intro other places regions hplaces hwaiting
        refine hstill _ _ _ (fun place hmem => List.mem_append_left _ (hplaces place hmem))
          (h.awaits_turn hfaces region.verdict hwaiting fun place hmem => ?_)
        rw [hlist]
        exact List.mem_append_right _ (hplaces place hmem)

end Progress

end Parterre
