/-
Outlines of trees.  The lines of an outline are those of the regions in the order of a
walk, indented by their depth.  Reading the lines back gives the names, the states and
the embeddings of all regions and, since the lines of its children stand behind a region
one level deeper, also the shape of the tree.
-/
import Mathlib.Data.List.Basic
import Mathlib.Data.List.TakeDrop
import Parterre.Garden.Kind
import Parterre.Proofs.Numerals
import Parterre.Proofs.Places
import Parterre.Region.Outline.Decode

namespace Parterre

/-- The text is one word. -/
def IsWord (text : String) : Prop :=
  text.toList ≠ [] ∧ ' ' ∉ text.toList ∧ '\n' ∉ text.toList

instance (text : String) : Decidable (IsWord text) :=
  inferInstanceAs (Decidable (_ ∧ _ ∧ _))

theorem span_append {α : Type} {p : α → Bool} {front rest : List α}
    (hfront : ∀ one ∈ front, p one = true) (hrest : ∀ one ∈ rest.head?, p one = false) :
    (front ++ rest).span p = (front, rest) := by
  rw [List.span_eq_takeWhile_dropWhile, List.takeWhile_append_of_pos hfront,
    List.dropWhile_append_of_pos hfront]
  cases rest with
  | nil => simp
  | cons first others => simp [hrest first rfl]

section

variable {c : Char} {front rest : List Char}

theorem bne_of_not_mem (h : c ∉ front) : ∀ one ∈ front, (one != c) = true :=
  fun _ hone => bne_iff_ne.mpr fun hsame => h (hsame ▸ hone)

/-- A part of a line up to a character that does not occur in it. -/
theorem span_ne_append (h : c ∉ front) (hrest : ∀ one ∈ rest.head?, one = c) :
    (front ++ rest).span (· != c) = (front, rest) := by
  apply span_append (bne_of_not_mem h)
  intro one hone
  rw [hrest one hone, bne_self_eq_false]

theorem dropWhile_ne_append (h : c ∉ front) :
    (front ++ c :: rest).dropWhile (· != c) = c :: rest := by
  rw [List.dropWhile_append_of_pos (bne_of_not_mem h)]
  simp

end

/-- The brackets hold numbers, which neither close a bracket nor end a line. -/
theorem Rect.exists_brief (bounds : Rect Float) :
    ∃ numbers : List Char, bounds.brief.toList = '[' :: (numbers ++ [']']) ∧
      ']' ∉ numbers ∧ '\n' ∉ numbers := by
  refine ⟨(Decimal.tenths bounds.x).toList ++ ", ".toList ++ (Decimal.tenths bounds.y).toList
    ++ " ".toList ++ (Decimal.tenths bounds.width).toList ++ "x".toList
    ++ (Decimal.tenths bounds.height).toList, ?_, ?_, ?_⟩
  · simp [brief, String.toList_append]
  · have htenths := fun value => (Decimal.IsNumeralText.tenths value).not_mem (c := ']') rfl
    simp [htenths]
  · have htenths := fun value => (Decimal.IsNumeralText.tenths value).not_mem (c := '\n') rfl
    simp [htenths]

namespace Status

theorem ofWord?_word (state : Status) : ofWord? state.word.toList = some state := by
  cases state <;> decide

theorem isWord_word (state : Status) : IsWord state.word := by
  cases state <;> decide

end Status

namespace Composition

@[simp]
theorem remark_none : remark none = "" := rfl

@[simp]
theorem remark_tiled : remark (some .tiled) = "" := rfl

@[simp]
theorem remark_embedded (margin : Float) :
    remark (some (.embedded margin)) = " (embed, margin " ++ Decimal.plain margin ++ ")" := rfl

variable (composition : Option (Composition Float))

theorem isEmpty_remark :
    (!(remark composition).toList.isEmpty) = isEmbed composition := by
  rcases composition with _ | (_ | margin)
  · rfl
  · rfl
  · simp [isEmbed]

theorem head?_remark : ∀ one ∈ (remark composition).toList.head?, one = ' ' := by
  rcases composition with _ | (_ | margin)
  · simp
  · simp
  · simp

theorem not_mem_remark : '\n' ∉ (remark composition).toList := by
  rcases composition with _ | (_ | margin)
  · simp
  · simp
  · have hplain := (Decimal.IsNumeralText.plain margin).not_mem (c := '\n') rfl
    simp [hplain]

end Composition

namespace Region

variable {κ : Type} [RegionKind κ]

theorem toList_outlineLine (level : Nat) (kind : κ) (bounds : Rect Float) (state : Status)
    (composition : Option (Composition Float)) :
    (outlineLine level kind bounds state composition).toList =
      List.replicate (2 * level) ' ' ++ ((RegionKind.name kind).toList ++
        (' ' :: (bounds.brief.toList ++
          (' ' :: (state.word.toList ++ (Composition.remark composition).toList))))) := by
  simp [outlineLine, indent]

variable (level : Nat) {kind : κ} (hname : IsWord (RegionKind.name kind)) (bounds : Rect Float)
  (state : Status) (composition : Option (Composition Float))

include hname

/-- A line tells the level, the name, the state and whether there is a feature. -/
theorem ofLine?_outlineLine :
    Heading.ofLine? (outlineLine level kind bounds state composition).toList =
      some ⟨level, RegionKind.name kind, state, Composition.isEmbed composition⟩ := by
  obtain ⟨hsome, hblank, _⟩ := hname
  obtain ⟨numbers, hbrief, hbracket, _⟩ := bounds.exists_brief
  have hword := span_ne_append state.isWord_word.2.1 (Composition.head?_remark composition)
  generalize hbehind : state.word.toList ++ (Composition.remark composition).toList = behind
    at hword
  have hbrackets : (' ' :: ('[' :: (numbers ++ [']']) ++ ' ' :: behind)).dropWhile (· != ']') =
      ']' :: ' ' :: behind := by
    have hfront : ']' ∉ ' ' :: '[' :: numbers := by
      simp [hbracket]
    have hdrop : ((' ' :: '[' :: numbers) ++ ']' :: ' ' :: behind).dropWhile (· != ']') =
        ']' :: ' ' :: behind := dropWhile_ne_append hfront
    simpa using hdrop
  generalize hrest : ' ' :: ('[' :: (numbers ++ [']']) ++ ' ' :: behind) = rest at hbrackets
  have hnamed : ((RegionKind.name kind).toList ++ rest).span (· != ' ') =
      ((RegionKind.name kind).toList, rest) := by
    apply span_ne_append hblank
    rw [← hrest]
    intro one hone
    exact (Option.some.inj hone).symm
  have hindent : (List.replicate (2 * level) ' ' ++ ((RegionKind.name kind).toList ++ rest)).span
      (· == ' ') = (List.replicate (2 * level) ' ', (RegionKind.name kind).toList ++ rest) := by
    apply span_append
    · intro one hone
      rw [List.eq_of_mem_replicate hone]
      rfl
    · intro one hone
      rw [List.head?_append, List.head?_eq_some_head hsome, Option.some_or] at hone
      have hfirst : one ∈ (RegionKind.name kind).toList :=
        Option.some.inj hone ▸ List.head_mem hsome
      exact beq_false_of_ne fun hsame => hblank (hsame ▸ hfirst)
  rw [toList_outlineLine, hbrief, hbehind, hrest, Heading.ofLine?]
  simp only [hindent, hnamed, hbrackets, hword, List.drop_succ_cons, List.drop_zero,
    Status.ofWord?_word, Option.map_some, List.length_replicate, String.ofList_toList]
  rw [Nat.mul_div_cancel_left level Nat.two_pos, Composition.isEmpty_remark]

theorem not_mem_outlineLine :
    '\n' ∉ (outlineLine level kind bounds state composition).toList := by
  obtain ⟨_, _, hname⟩ := hname
  obtain ⟨numbers, hbrief, _, hnumbers⟩ := bounds.exists_brief
  have hstate := state.isWord_word.2.2
  rw [toList_outlineLine, hbrief]
  simp [hname, hnumbers, hstate, Composition.not_mem_remark composition, List.mem_replicate]

omit hname

/-- The line of a region on a level. -/
def line (level : Nat) (region : Region κ Float) : String :=
  outlineLine level region.kind region.bounds region.state region.composition

theorem outlineLinesAll_eq_flatMap (level : Nat) (regions : List (Region κ Float)) :
    outlineLinesAll level regions = regions.flatMap (outlineLines level) := by
  induction regions with
  | nil => rfl
  | cons first rest ih => rw [outlineLinesAll, ih, List.flatMap_cons]

/-- There is a line for every place, indented by the length of the way. -/
theorem outlineLines_eq_map (level : Nat) (region : Region κ Float) :
    region.outlineLines level =
      region.places.map fun found => found.2.line (level + found.1.length) := by
  induction region using Region.induct generalizing level with
  | node kind bounds state composition children ih =>
      rw [outlineLines, outlineLinesAll_eq_flatMap, map_places]
      exact congrArg (_ :: ·) (List.flatMap_congr fun child hchild => ih child hchild (level + 1))

end Region

namespace Skeleton

/-- Lines that are ended by line breaks are the lines of the whole text. -/
theorem lines_flatMap {texts : List (List Char)} (h : ∀ text ∈ texts, '\n' ∉ text) :
    lines (texts.flatMap fun text => text ++ ['\n']) = texts := by
  rw [lines]
  induction texts with
  | nil => simp
  | cons first rest ih =>
      obtain ⟨hfirst, hrest⟩ := List.forall_mem_cons.mp h
      have hsplit : ((first ++ ['\n']) ++ rest.flatMap fun text => text ++ ['\n']).splitOn '\n' =
          first :: (rest.flatMap fun text => text ++ ['\n']).splitOn '\n' := by
        rw [List.append_assoc, List.singleton_append]
        exact List.splitOnP_append_cons_of_forall_mem
          (fun _ hone => beq_false_of_ne (ne_of_mem_of_not_mem hone hfirst)) _ rfl _
      rw [List.flatMap_cons, hsplit, List.dropLast_cons_of_ne_nil (List.splitOn_ne_nil _ _),
        ih hrest]

mutual

/-- What the lines of a tree tell whose root is on the given level. -/
def headings (level : Nat) : Skeleton → List Heading
  | .node kindName state isEmbed children =>
      ⟨level, kindName, state, isEmbed⟩ :: headingsAll (level + 1) children

def headingsAll (level : Nat) : List Skeleton → List Heading
  | [] => []
  | first :: rest => first.headings level ++ headingsAll level rest

end

theorem headingsAll_eq_flatMap (level : Nat) (trees : List Skeleton) :
    headingsAll level trees = trees.flatMap (headings level) := by
  induction trees with
  | nil => rfl
  | cons first rest ih => rw [headingsAll, ih, List.flatMap_cons]

theorem level_lt_of_head? {level : Nat} {trees : List Skeleton} {rest : List Heading}
    (hrest : ∀ first ∈ rest.head?, first.level < level) {first : Heading}
    (hfirst : first ∈ (headingsAll level trees ++ rest).head?) : first.level < level + 1 := by
  cases trees with
  | nil => exact Nat.lt_succ_of_lt (hrest first hfirst)
  | cons tree others =>
      obtain ⟨kindName, state, isEmbed, children⟩ := tree
      cases hfirst
      exact Nat.lt_succ_self level

/-- The trees of a level are read up to the lines of a level above. -/
theorem ofHeadings_append {rounds level : Nat} {trees : List Skeleton} {rest : List Heading}
    (hrounds : (headingsAll level trees).length ≤ rounds)
    (hrest : ∀ first ∈ rest.head?, first.level < level) :
    ofHeadings rounds level (headingsAll level trees ++ rest) = (trees, rest) := by
  induction rounds generalizing level trees rest with
  | zero =>
      cases trees with
      | nil => rfl
      | cons first others =>
          obtain ⟨kindName, state, isEmbed, children⟩ := first
          simp [headingsAll, headings] at hrounds
  | succ rounds ih =>
      cases trees with
      | nil =>
          cases rest with
          | nil => rfl
          | cons first others =>
              have hfirst := Nat.ne_of_lt (hrest first rfl)
              rw [headingsAll, List.nil_append, ofHeadings, if_neg hfirst]
      | cons first others =>
          obtain ⟨kindName, state, isEmbed, children⟩ := first
          rw [headingsAll, headings, List.cons_append, List.length_cons, List.length_append]
            at hrounds
          -- behind the children come the siblings or a level above
          have hchildren : ofHeadings rounds (level + 1)
              (headingsAll (level + 1) children ++ (headingsAll level others ++ rest)) =
                (children, headingsAll level others ++ rest) := by
            exact ih (by omega) fun first hfirst => level_lt_of_head? hrest hfirst
          have hothers : ofHeadings rounds level (headingsAll level others ++ rest) =
              (others, rest) := ih (by omega) hrest
          rw [headingsAll, headings, List.append_assoc, List.cons_append, ofHeadings,
            if_pos rfl]
          simp only [hchildren, hothers]

end Skeleton

namespace Region

variable {κ : Type} [RegionKind κ]

/-- What the line of a region tells. -/
def heading (level : Nat) (region : Region κ Float) : Heading :=
  ⟨level, RegionKind.name region.kind, region.state, Composition.isEmbed region.composition⟩

theorem skeletons_eq_map (regions : List (Region κ Float)) :
    skeletons regions = regions.map skeleton := by
  induction regions with
  | nil => rfl
  | cons first rest ih => rw [skeletons, ih, List.map_cons]

theorem headings_skeleton (level : Nat) (region : Region κ Float) :
    region.skeleton.headings level =
      region.places.map fun found => found.2.heading (level + found.1.length) := by
  induction region using Region.induct generalizing level with
  | node kind bounds state composition children ih =>
      rw [skeleton, Skeleton.headings, Skeleton.headingsAll_eq_flatMap, skeletons_eq_map,
        List.flatMap_map, map_places]
      exact congrArg (_ :: ·) (List.flatMap_congr fun child hchild => ih child hchild (level + 1))

section

variable (hnames : ∀ kind : κ, IsWord (RegionKind.name kind)) (region : Region κ Float)

include hnames

/-- The lines of the text are those of the places. -/
theorem lines_outline :
    Skeleton.lines region.outline.toList =
      region.places.map fun found => (found.2.line found.1.length).toList := by
  have hlines : region.outline.toList =
      (region.places.map fun found => (found.2.line found.1.length).toList).flatMap
        fun text => text ++ ['\n'] := by
    rw [outline, outlineLines_eq_map, String.toList_join]
    simp only [List.flatMap_map, String.toList_append, Nat.zero_add]
    rfl
  rw [hlines, Skeleton.lines_flatMap]
  intro text htext
  obtain ⟨found, _, rfl⟩ := List.mem_map.mp htext
  exact not_mem_outlineLine _ (hnames _) _ _ _

/-- The decoder gives back what an outline tells. -/
theorem ofOutline?_outline :
    Skeleton.ofOutline? region.outline = some region.skeleton := by
  have hread : (Skeleton.lines region.outline.toList).mapM Heading.ofLine? =
      some (region.skeleton.headings 0) := by
    have hline : ∀ found : List Nat × Region κ Float,
        Heading.ofLine? (found.2.line found.1.length).toList =
          pure (found.2.heading found.1.length) :=
      fun found => ofLine?_outlineLine _ (hnames _) _ _ _
    rw [lines_outline hnames, headings_skeleton, List.mapM_map]
    simp only [Function.comp_def, hline, List.mapM_pure, Nat.zero_add]
    rfl
  have htrees : Skeleton.ofHeadings ((region.skeleton.headings 0).length + 1) 0
      (region.skeleton.headings 0) = ([region.skeleton], []) := by
    have hall : Skeleton.headingsAll 0 [region.skeleton] = region.skeleton.headings 0 := by
      rw [Skeleton.headingsAll, Skeleton.headingsAll, List.append_nil]
    have hend : ∀ first ∈ ([] : List Heading).head?, first.level < 0 := by simp
    rw [← hall]
    simpa using Skeleton.ofHeadings_append (Nat.le_succ _) hend
  rw [Skeleton.ofOutline?, hread]
  simp [htrees]

end

/-- An outline has one line for each region in the order of a walk, and the line is
indented by two blanks for each step of the way to the region.  The decoder gives back
the shape of the tree with the names, the states and the features of all regions, so
trees with the same outline agree in all of these. -/
theorem outline_determines (hnames : ∀ kind : κ, IsWord (RegionKind.name kind))
    (region : Region κ Float) :
    (Skeleton.lines region.outline.toList).length = region.count ∧
      (∀ (position : Nat) (found : Region κ Float), region.walk[position]? = some found →
        ∃ way, region.places[position]? = some (way, found) ∧ region.at? way = some found ∧
          (Skeleton.lines region.outline.toList)[position]? =
            some (List.replicate (2 * way.length) ' ' ++
              ((RegionKind.name found.kind).toList ++ (' ' :: (found.bounds.brief.toList ++
                (' ' :: (found.state.word.toList ++
                  (Composition.remark found.composition).toList))))))) ∧
      (region.places.map Prod.fst).Pairwise (· < ·) ∧
      Skeleton.ofOutline? region.outline = some region.skeleton ∧
      ∀ other : Region κ Float, other.outline = region.outline →
        other.skeleton = region.skeleton := by
  have hread := ofOutline?_outline hnames
  refine ⟨?_, fun position found hfound => ?_, ascending_places region, hread region,
    fun other hsame => ?_⟩
  · rw [lines_outline hnames, count, ← map_snd_places, List.length_map, List.length_map]
  · rw [← map_snd_places, List.getElem?_map, Option.map_eq_some_iff] at hfound
    obtain ⟨⟨way, below⟩, hplace, rfl⟩ := hfound
    refine ⟨way, hplace, mem_places_iff.mp (List.mem_of_getElem? hplace), ?_⟩
    rw [lines_outline hnames, List.getElem?_map, hplace, Option.map_some, line,
      toList_outlineLine]
  · have hother := hread other
    rw [hsame, hread region] at hother
    exact (Option.some.inj hother).symm

end Region

/-- A pond in a lawn. -/
def Garden.islet : Region Garden.Kind Float :=
  .node .root ⟨0, 0, 100, 50⟩ .expanded (some (.embedded 10))
    [.node .grass ⟨0, 0, 100, 50⟩ .terminal none [],
      .node .pond ⟨10, 10, 80, 30⟩ .terminal none []]

theorem Region.outline_determines_islet :
    (∀ kind : Garden.Kind, IsWord (RegionKind.name kind)) ∧
      (Skeleton.lines Garden.islet.outline.toList).length = Garden.islet.count ∧
      Skeleton.ofOutline? Garden.islet.outline =
        some (.node "Root" .expanded true
          [.node "Grass" .terminal false [], .node "Pond" .terminal false []]) := by
  have hnames : ∀ kind : Garden.Kind, IsWord (RegionKind.name kind) := by
    intro kind
    cases kind <;> decide
  obtain ⟨hlength, _, _, hread, _⟩ := outline_determines hnames Garden.islet
  exact ⟨hnames, hlength, hread⟩

example : Garden.islet.outline =
    "Root [0.0, 0.0 100.0x50.0] expanded (embed, margin 10)\n" ++
      "  Grass [0.0, 0.0 100.0x50.0] terminal\n" ++
      "  Pond [10.0, 10.0 80.0x30.0] terminal\n" := by
  decide +kernel

end Parterre
