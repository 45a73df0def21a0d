/-
Drawing without replacement, over the exact rationals.  Every draw falls into one of
equal slots, one for each element that is left, and the slots of all draws are a vector
of positions in pools that shrink.  Different vectors take out different selections
and every ordered selection is taken out by one of them, so each selection has one box
of draws, and all boxes have the same sides.
-/
import Parterre.Proofs.Draws

namespace Parterre

variable {κ α β σ : Type}

/-- A source that never fails gives as many draws as asked. -/
theorem DrawSource.Supplies.exists_gives [DrawSource σ α] {admits : α → Prop} {source : σ}
    (h : Supplies admits source) (count : Nat) :
    ∃ draws, draws.length = count ∧ Gives source draws ∧ ∀ value ∈ draws, admits value := by
  induction count generalizing source with
  | zero => exact ⟨[], rfl, gives_nil source, by simp⟩
  | succ count ih =>
      obtain ⟨value, hvalue, hadmits⟩ := h 0
      obtain ⟨draws, hlength, hgives, hall⟩ := ih (h.advance_iterate 1)
      refine ⟨value :: draws, congrArg (· + 1) hlength, ?_,
        List.forall_mem_cons.mpr ⟨hadmits, hall⟩⟩
      exact gives_cons_iff.mpr ⟨Prod.ext hvalue rfl, hgives⟩

namespace Sampler

/-- The draws fix the result. -/
theorem Takes.unique {sampler : Sampler α β} {draws : List α}
    {first second : Except (LayoutError α) β} (hfirst : Takes sampler draws first)
    (hsecond : Takes sampler draws second) : first = second := by
  induction hfirst with
  | done result =>
      cases hsecond
      rfl
  | draw _ ih =>
      cases hsecond with
      | draw hnext => exact ih hnext

/-- The second part of a sequence takes the draws behind those of the first. -/
theorem Takes.bind {γ : Type} {sampler : Sampler α β} {next : β → Sampler α γ} {value : β}
    {draws later : List α} {result : Except (LayoutError α) γ}
    (hfirst : Takes sampler draws (.ok value)) (hsecond : Takes (next value) later result) :
    Takes (sampler >>= next) (draws ++ later) result := by
  generalize hvalue : (Except.ok value : Except (LayoutError α) β) = given at hfirst
  induction hfirst with
  | done given =>
      subst hvalue
      exact hsecond
  | draw _ ih => exact .draw (ih hvalue)

/-- A result that admitted draws lead to is an outcome. -/
theorem Takes.outcome {sampler : Sampler α β} {draws : List α} {admits : α → Prop}
    {result : Except (LayoutError α) β} (h : Takes sampler draws result)
    (hdraws : ∀ value ∈ draws, admits value) : Outcome admits sampler result := by
  induction h with
  | done result => exact .done result
  | draw _ ih =>
      obtain ⟨hvalue, hrest⟩ := List.forall_mem_cons.mp hdraws
      exact .draw hvalue (ih hrest)

/-- Take the elements at the given positions out of a pool, one after the other.
Returns them in this order, and the pool that is left. -/
def takeAt : List Nat → List κ → List κ × List κ
  | [], pool => ([], pool)
  | position :: rest, pool =>
      let (chosen, left) := takeAt rest (pool.eraseIdx position)
      (pool[position]?.toList ++ chosen, left)

/-- The slots that draws fall into, when every slot leaves one less for the next
draw. -/
def slots [Scalar α] : Nat → List α → List Nat
  | _, [] => []
  | size, value :: rest => slot size value :: slots (size - 1) rest

section Slots

variable [Scalar α]

theorem slot_lt {size : Nat} (hsize : 0 < size) (value : α) : slot size value < size := by
  unfold slot
  omega

theorem length_eraseIdx_slot (pool : List κ) (value : α) :
    (pool.eraseIdx (slot pool.length value)).length = pool.length - 1 := by
  cases pool with
  | nil => rfl
  | cons first rest => exact List.length_eraseIdx_of_lt (slot_lt (Nat.succ_pos _) value)

/-- One draw for each element is taken, and it is used for nothing but a position. -/
theorem takes_withoutReplacement (draws : List α) (pool : List κ) :
    Takes (withoutReplacement draws.length pool) draws
      (.ok (takeAt (slots pool.length draws) pool)) := by
  induction draws generalizing pool with
  | nil => exact .done _
  | cons value rest ih =>
      have hrest := ih (pool.eraseIdx (slot pool.length value))
      rw [length_eraseIdx_slot] at hrest
      have hboth : Takes
          (withoutReplacement rest.length (pool.eraseIdx (slot pool.length value)) >>=
            fun drawn => pure (pool[slot pool.length value]?.toList ++ drawn.1, drawn.2))
          (rest ++ []) (.ok (takeAt (slots pool.length (value :: rest)) pool)) :=
        hrest.bind (.done _)
      rw [List.append_nil] at hboth
      exact .draw hboth

end Slots

/-- Vectors of positions in pools of `size`, `size - 1`, … elements. -/
def Positions (size count : Nat) : Set (List Nat) :=
  {positions | positions.length = count ∧
    ∀ place position, positions[place]? = some position → position < size - place}

/-- The ordered selections of distinct elements of a pool. -/
def Selections (pool : List κ) (count : Nat) : Set (List κ) :=
  {selection | selection.length = count ∧ selection.Nodup ∧ selection ⊆ pool}

/-- Each draw lies in the slot of its position, where the slots of one draw cut `[0, 1)`
into equal parts, one for each element that is left. -/
def InSlots (size : Nat) (positions : List Nat) (draws : List Rat) : Prop :=
  ∀ (place position : Nat) (value : Rat),
    positions[place]? = some position → draws[place]? = some value →
    (position : Rat) / (size - place : Nat) ≤ value ∧
      value < (position + 1) / (size - place : Nat)

section Vectors

variable {size count position : Nat} {positions : List Nat} {pool : List κ}

theorem cons_mem_positions_iff :
    position :: positions ∈ Positions size (count + 1) ↔
      position < size ∧ positions ∈ Positions (size - 1) count := by
  constructor
  · rintro ⟨hlength, hall⟩
    refine ⟨hall 0 position rfl, Nat.succ.inj hlength, fun place other hother => ?_⟩
    have hlt := hall (place + 1) other hother
    omega
  · rintro ⟨hfirst, hlength, hall⟩
    refine ⟨congrArg (· + 1) hlength, fun place other hother => ?_⟩
    cases place with
    | zero =>
        cases hother
        exact hfirst
    | succ place =>
        have hlt := hall place other hother
        omega

theorem slots_mem_positions [Scalar α] {draws : List α} (h : draws.length ≤ size) :
    slots size draws ∈ Positions size draws.length := by
  induction draws generalizing size with
  | nil => exact ⟨rfl, by simp [slots]⟩
  | cons value rest ih =>
      rw [List.length_cons] at h
      exact cons_mem_positions_iff.mpr ⟨slot_lt (Nat.zero_lt_of_lt h) value, ih (by omega)⟩

/-- Behind its first element, a selection selects from what is left. -/
theorem cons_mem_selections_iff (hnodup : pool.Nodup) {first : κ} {rest : List κ}
    (hfirst : pool[position]? = some first) :
    first :: rest ∈ Selections pool (count + 1) ↔
      rest ∈ Selections (pool.eraseIdx position) count := by
  have hleft : ∀ element, element ∈ pool.eraseIdx position ↔ element ∈ pool ∧ element ≠ first := by
    intro element
    rw [List.mem_eraseIdx_iff_getElem?]
    constructor
    · rintro ⟨place, hplace, helement⟩
      refine ⟨List.mem_of_getElem? helement, ?_⟩
      rintro rfl
      have hlt := (List.getElem?_eq_some_iff.mp helement).1
      exact hplace ((List.getElem?_inj hlt hnodup).mp (helement.trans hfirst.symm))
    · rintro ⟨hmem, hne⟩
      obtain ⟨place, helement⟩ := List.getElem?_of_mem hmem
      refine ⟨place, ?_, helement⟩
      rintro rfl
      exact hne (Option.some.inj (helement.symm.trans hfirst))
  constructor
  · rintro ⟨hlength, hdistinct, hsubset⟩
    obtain ⟨hnew, hrest⟩ := List.nodup_cons.mp hdistinct
    refine ⟨Nat.succ.inj hlength, hrest, fun element helement => ?_⟩
    refine (hleft element).mpr ⟨hsubset (List.mem_cons_of_mem _ helement), ?_⟩
    rintro rfl
    exact hnew helement
  · rintro ⟨hlength, hdistinct, hsubset⟩
    refine ⟨congrArg (· + 1) hlength, List.nodup_cons.mpr ⟨fun hmem => ?_, hdistinct⟩, ?_⟩
    · exact ((hleft first).mp (hsubset hmem)).2 rfl
    · refine List.cons_subset.mpr ⟨List.mem_of_getElem? hfirst, fun element helement => ?_⟩
      exact ((hleft element).mp (hsubset helement)).1

theorem takeAt_cons {first : κ} (hfirst : pool[position]? = some first) :
    takeAt (position :: positions) pool =
      (first :: (takeAt positions (pool.eraseIdx position)).1,
        (takeAt positions (pool.eraseIdx position)).2) := by
  rw [takeAt, hfirst]
  rfl

theorem takeAt_mem_selections (hnodup : pool.Nodup) (h : positions ∈ Positions pool.length count) :
    (takeAt positions pool).1 ∈ Selections pool count := by
  induction positions generalizing pool count with
  | nil =>
      obtain ⟨rfl, _⟩ := h
      exact ⟨rfl, List.nodup_nil, List.nil_subset pool⟩
  | cons position rest ih =>
      obtain rfl : rest.length + 1 = count := h.1
      obtain ⟨hlt, hrest⟩ := cons_mem_positions_iff.mp h
      rw [← List.length_eraseIdx_of_lt hlt] at hrest
      have hfirst := List.getElem?_eq_getElem hlt
      rw [takeAt_cons hfirst]
      exact (cons_mem_selections_iff hnodup hfirst).mpr (ih (hnodup.eraseIdx position) hrest)

/-- Different vectors take out different selections. -/
theorem positions_unique (hnodup : pool.Nodup) {others : List Nat}
    (h : positions ∈ Positions pool.length count) (hothers : others ∈ Positions pool.length count)
    (hsame : (takeAt positions pool).1 = (takeAt others pool).1) : positions = others := by
  induction positions generalizing pool count others with
  | nil =>
      obtain ⟨rfl, _⟩ := h
      exact (List.eq_nil_of_length_eq_zero hothers.1).symm
  | cons position rest ih =>
      obtain rfl : rest.length + 1 = count := h.1
      obtain ⟨other, later, rfl⟩ := List.exists_cons_of_length_eq_add_one hothers.1
      obtain ⟨hlt, hrest⟩ := cons_mem_positions_iff.mp h
      obtain ⟨hlt', hlater⟩ := cons_mem_positions_iff.mp hothers
      have hfirst := List.getElem?_eq_getElem hlt
      have hfirst' := List.getElem?_eq_getElem hlt'
      rw [takeAt_cons hfirst, takeAt_cons hfirst', List.cons.injEq] at hsame
      obtain ⟨hhead, htail⟩ := hsame
      -- the pool holds the first element at one position only
      obtain rfl : position = other := (List.getElem?_inj hlt hnodup).mp (by
        rw [hfirst, hfirst', hhead])
      rw [← List.length_eraseIdx_of_lt hlt] at hrest hlater
      rw [ih (hnodup.eraseIdx position) hrest hlater htail]

/-- Every selection is taken out by some vector. -/
theorem exists_positions (hnodup : pool.Nodup) {selection : List κ}
    (h : selection ∈ Selections pool count) :
    ∃ positions ∈ Positions pool.length count, (takeAt positions pool).1 = selection := by
  induction selection generalizing pool count with
  | nil =>
      obtain ⟨rfl, _⟩ := h
      exact ⟨[], ⟨rfl, by simp⟩, rfl⟩
  | cons first rest ih =>
      obtain rfl : rest.length + 1 = count := h.1
      obtain ⟨position, hfirst⟩ := List.getElem?_of_mem (h.2.2 List.mem_cons_self)
      have hlt := (List.getElem?_eq_some_iff.mp hfirst).1
      obtain ⟨positions, hpositions, hrest⟩ :=
        ih (hnodup.eraseIdx position) ((cons_mem_selections_iff hnodup hfirst).mp h)
      rw [List.length_eraseIdx_of_lt hlt] at hpositions
      refine ⟨position :: positions, cons_mem_positions_iff.mpr ⟨hlt, hpositions⟩, ?_⟩
      rw [takeAt_cons hfirst, hrest]

theorem bijOn_takeAt (hnodup : pool.Nodup) :
    Set.BijOn (fun positions => (takeAt positions pool).1) (Positions pool.length count)
      (Selections pool count) :=
  ⟨fun _ h => takeAt_mem_selections hnodup h,
    fun _ h _ hothers hsame => positions_unique hnodup h hothers hsame,
    fun _ h => exists_positions hnodup h⟩

theorem positions_zero (size : Nat) : Positions size 0 = {[]} := by
  ext positions
  rw [Set.mem_singleton_iff]
  constructor
  · exact fun h => List.eq_nil_of_length_eq_zero h.1
  · rintro rfl
    exact ⟨rfl, by simp⟩

theorem positions_succ (size count : Nat) :
    Positions size (count + 1) =
      (fun pair => pair.1 :: pair.2) '' (Set.Iio size ×ˢ Positions (size - 1) count) := by
  ext positions
  constructor
  · intro h
    obtain ⟨position, rest, rfl⟩ := List.exists_cons_of_length_eq_add_one h.1
    exact ⟨(position, rest), cons_mem_positions_iff.mp h, rfl⟩
  · rintro ⟨⟨position, rest⟩, h, rfl⟩
    exact cons_mem_positions_iff.mpr h

theorem ncard_positions (size count : Nat) :
    (Positions size count).ncard = size.descFactorial count := by
  induction count generalizing size with
  | zero => rw [positions_zero, Set.ncard_singleton, Nat.descFactorial_zero]
  | succ count ih =>
      have hinjective : Function.Injective fun pair : Nat × List Nat => pair.1 :: pair.2 := by
        rintro ⟨position, rest⟩ ⟨other, later⟩ h
        obtain ⟨rfl, rfl⟩ := List.cons.inj h
        rfl
      have hsize : (Set.Iio size).ncard = size := by simp
      rw [positions_succ, Set.ncard_image_of_injective _ hinjective, Set.ncard_prod, hsize, ih]
      cases size with
      | zero => rw [Nat.zero_mul, Nat.zero_descFactorial_succ]
      | succ size => rw [Nat.add_sub_cancel, Nat.succ_descFactorial_succ]

end Vectors

section Boxes

theorem truncate_eq_iff {value : Rat} (hvalue : 0 ≤ value) {whole : Nat} :
    Scalar.truncate value = whole ↔ (whole : Rat) ≤ value ∧ value < whole + 1 := by
  change ⌊value⌋.toNat = whole ↔ _
  rw [Int.floor_toNat, Nat.floor_eq_iff hvalue]

variable {size position : Nat} {value : Rat}

/-- A draw falls into the slot that it lies in, and is never cut off at the last one. -/
theorem slot_eq_iff (hposition : position < size) (hvalue : InUnit value) :
    slot size value = position ↔
      (position : Rat) / size ≤ value ∧ value < (position + 1) / size := by
  have hsize : (0 : Rat) < size := Nat.cast_pos.mpr (Nat.zero_lt_of_lt hposition)
  have hscaled : 0 ≤ value * size := mul_nonneg hvalue.1 hsize.le
  have hbelow : Scalar.truncate (value * size) < size := by
    obtain ⟨hle, _⟩ := (truncate_eq_iff hscaled).mp rfl
    have hlt : value * size < size := mul_lt_of_lt_one_left hsize hvalue.2
    exact_mod_cast hle.trans_lt hlt
  have hslot : slot size value = Scalar.truncate (value * size) :=
    Nat.min_eq_left (Nat.le_sub_one_of_lt hbelow)
  rw [hslot, truncate_eq_iff hscaled, div_le_iff₀ hsize, lt_div_iff₀ hsize]

theorem inSlots_cons_iff {positions : List Nat} {draws : List Rat} :
    InSlots size (position :: positions) (value :: draws) ↔
      ((position : Rat) / size ≤ value ∧ value < (position + 1) / size) ∧
        InSlots (size - 1) positions draws := by
  constructor
  · intro h
    refine ⟨h 0 position value rfl rfl, fun place other drawn hother hdrawn => ?_⟩
    have hlater := h (place + 1) other drawn hother hdrawn
    rwa [Nat.add_comm, Nat.sub_add_eq] at hlater
  · rintro ⟨hfirst, hrest⟩ place other drawn hother hdrawn
    cases place with
    | zero =>
        cases hother
        cases hdrawn
        exact hfirst
    | succ place =>
        rw [Nat.add_comm, Nat.sub_add_eq]
        exact hrest place other drawn hother hdrawn

/-- The draws that fall on the positions of a vector are those of its box. -/
theorem slots_eq_iff {positions : List Nat} {draws : List Rat}
    (h : positions ∈ Positions size draws.length) (hdraws : ∀ value ∈ draws, InUnit value) :
    slots size draws = positions ↔ InSlots size positions draws := by
  induction draws generalizing size positions with
  | nil =>
      obtain rfl := List.eq_nil_of_length_eq_zero h.1
      simp [slots, InSlots]
  | cons value rest ih =>
      obtain ⟨position, later, rfl⟩ := List.exists_cons_of_length_eq_add_one h.1
      obtain ⟨hlt, hlater⟩ := cons_mem_positions_iff.mp h
      obtain ⟨hvalue, hrest⟩ := List.forall_mem_cons.mp hdraws
      rw [slots, List.cons.injEq, slot_eq_iff hlt hvalue, ih hlater hrest, inSlots_cons_iff]

end Boxes

variable {pool : List κ} {count : Nat}

/-- Over draws from `[0, 1)`, drawing without replacement takes one draw for each element
and splits the pool.  If the elements of the pool are distinct, the vectors of positions
correspond to the ordered selections, and a selection is drawn exactly if every draw lies
in the slot of its position. -/
theorem withoutReplacement_bijective [DrawSource σ Rat] (hcount : count ≤ pool.length) :
    (∀ source : σ, DrawSource.Supplies InUnit source →
      ∃ draws chosen rest, draws.length = count ∧ DrawSource.Gives source draws ∧
        Takes (withoutReplacement count pool) draws (.ok (chosen, rest)) ∧
        (withoutReplacement count pool).run source =
          (.ok (chosen, rest), DrawSource.advance^[count] source) ∧
        (chosen ++ rest).Perm pool ∧ (pool.Nodup → chosen.Nodup)) ∧
    (pool.Nodup →
      Set.BijOn (fun positions => (takeAt positions pool).1) (Positions pool.length count)
        (Selections pool count) ∧
      (Selections pool count).ncard = pool.length.descFactorial count ∧
      ∀ positions ∈ Positions pool.length count, ∀ draws : List Rat, draws.length = count →
        (∀ value ∈ draws, InUnit value) →
        ((∃ rest, Takes (withoutReplacement count pool) draws
            (.ok ((takeAt positions pool).1, rest))) ↔
          InSlots pool.length positions draws)) := by
  refine ⟨fun source hsource => ?_, fun hnodup => ⟨bijOn_takeAt hnodup, ?_, ?_⟩⟩
  · obtain ⟨draws, rfl, hgives, hunit⟩ := hsource.exists_gives count
    have htakes := takes_withoutReplacement draws pool
    obtain ⟨hperm, _⟩ := withoutReplacement_perm (htakes.outcome hunit) hcount
    exact ⟨draws, _, _, rfl, hgives, htakes, htakes.run hgives, hperm,
      fun hnodup => (hperm.nodup_iff.mpr hnodup).of_append_left⟩
  · rw [← (bijOn_takeAt hnodup).ncard_eq, ncard_positions]
  · rintro positions hpositions draws rfl hunit
    have htakes := takes_withoutReplacement draws pool
    rw [← slots_eq_iff hpositions hunit]
    constructor
    · rintro ⟨rest, hother⟩
      have hsame := congrArg Prod.fst (Except.ok.inj (htakes.unique hother))
      exact positions_unique hnodup (slots_mem_positions hcount) hpositions hsame
    · rintro rfl
      exact ⟨_, htakes⟩

end Sampler

namespace Garden

/-- A pool of three kinds. -/
def plants : List Kind :=
  [.grass, .pond, .forest]

/-- There are six ordered selections of two of the three kinds.  The pond and then the
forest are drawn in the second third of `[0, 1)`, and then in its second half. -/
theorem withoutReplacement_bijective_plants :
    2 ≤ plants.length ∧ plants.Nodup ∧
    DrawSource.Supplies InUnit (⟨1 / 2⟩ : Steady Rat) ∧
    (∃ chosen rest, (Sampler.withoutReplacement 2 plants).run (⟨1 / 2⟩ : Steady Rat) =
        (.ok (chosen, rest), DrawSource.advance^[2] ⟨1 / 2⟩) ∧
      (chosen ++ rest).Perm plants ∧ chosen.Nodup) ∧
    (Sampler.Selections plants 2).ncard = 6 ∧
    (∃ rest, Sampler.Takes (Sampler.withoutReplacement 2 plants) [(1 / 2 : Rat), 9 / 10]
      (.ok ([.pond, .forest], rest))) ∧
    ¬ ∃ rest, Sampler.Takes (Sampler.withoutReplacement 2 plants) [(1 / 2 : Rat), 1 / 4]
      (.ok ([.pond, .forest], rest)) := by
  have hcount : 2 ≤ plants.length := by decide
  have hnodup : plants.Nodup := by decide
  have hsupplies : DrawSource.Supplies InUnit (⟨1 / 2⟩ : Steady Rat) :=
    Steady.supplies (by constructor <;> decide +kernel)
  have hpositions : [1, 1] ∈ Sampler.Positions plants.length 2 :=
    Sampler.cons_mem_positions_iff.mpr
      ⟨by decide, Sampler.cons_mem_positions_iff.mpr ⟨by decide, rfl, by simp⟩⟩
  obtain ⟨hruns, hdistinct⟩ :=
    @Sampler.withoutReplacement_bijective Kind (Steady Rat) plants 2 _ hcount
  obtain ⟨_, chosen, rest, _, _, _, hrun, hperm, hchosen⟩ := hruns _ hsupplies
  obtain ⟨_, hcard, hboxes⟩ := hdistinct hnodup
  have hunit : ∀ value ∈ [(1 / 2 : Rat), 9 / 10], InUnit value := by
    unfold InUnit
    decide +kernel
  have hunit' : ∀ value ∈ [(1 / 2 : Rat), 1 / 4], InUnit value := by
    unfold InUnit
    decide +kernel
  refine ⟨hcount, hnodup, hsupplies, ⟨chosen, rest, hrun, hperm, hchosen hnodup⟩, hcard,
    (hboxes [1, 1] hpositions _ rfl hunit).mpr ?_, fun htaken => ?_⟩
  · refine Sampler.inSlots_cons_iff.mpr ⟨?_, Sampler.inSlots_cons_iff.mpr ⟨?_, ?_⟩⟩
    · decide +kernel
    · decide +kernel
    · simp [Sampler.InSlots]
  · -- a quarter lies in the slot of the grass
    have hslots := (hboxes [1, 1] hpositions _ rfl hunit').mp htaken
    obtain ⟨hlow, _⟩ := hslots 1 1 (1 / 4) rfl rfl
    exact absurd hlow (by decide +kernel)

end Garden

end Parterre
