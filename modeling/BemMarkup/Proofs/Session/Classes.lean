import BemMarkup.Proofs.Session.Memory

/-!
# Classes follow the chain

An element gets a class for each of its names and each block name along the chain.  The
classes are put together from stems in a roundabout way: the stems end with an empty one, so
joining them with the element name behind each leaves one space too many, and this space is
taken away again.  That gives the right text only if the stems are those of the chain and
exactly one empty stem follows them.

Stems are copied when a template is made and computed again when it is renamed, and nothing
else is told about it.  They stay right because only a template without children can be
renamed, so nobody has copied what a renaming changes.

## Main definitions

* `elementClasses`: the classes of an element, one by one.
* `Session.blocksOf`: the block names along a chain.

## Main results

* `composeClasses_eq_intercalate`: the stems of some blocks compose to the classes in a row.
* `Session.stems_follow_chain`: all through a run, stems and classes are those of the chain.
-/

namespace BemMarkup

open Document Template

/-! ## Composing classes -/

section Composing

variable {classes : List String}

/-- The classes of an element with the given slots of names: for each name in order, one class
for each block. -/
def elementClasses (blocks : List String) (names : List (Option String)) : List String :=
  names.reduceOption.flatMap fun name => blocks.map fun block => block ++ "__" ++ name

/-- Joining stems with a name puts a space behind every class. -/
theorem intercalate_stems (name : String) (blocks : List String) :
    (name ++ " ").intercalate (blocks.map classStem ++ [""]) =
      String.join (blocks.map fun block => block ++ "__" ++ name ++ " ") := by
  induction blocks with
  | nil => simp
  | cons block blocks ih =>
      have hne : blocks.map classStem ++ [""] ≠ [] := by simp
      rw [List.map_cons, List.cons_append, String.intercalate_cons_of_ne_nil hne, ih,
        List.map_cons, String.join_cons, classStem, nameDelimiter]
      simp only [String.append_assoc]

/-- Classes with a space behind each are the classes in a row and one more space. -/
theorem join_map_append_space (h : classes ≠ []) :
    String.join (classes.map (· ++ " ")) = " ".intercalate classes ++ " " := by
  induction classes with
  | nil => exact absurd rfl h
  | cons first classes ih =>
      rw [List.map_cons, String.join_cons]
      by_cases hrest : classes = []
      · subst hrest
        simp
      · rw [ih hrest, String.intercalate_cons_of_ne_nil hrest]
        simp only [String.append_assoc]

/-- Without classes there is no space at the end, and none is taken away. -/
theorem dropEndSpace_join (classes : List String) :
    dropEndSpace (String.join (classes.map (· ++ " "))).toList =
      (" ".intercalate classes).toList := by
  by_cases h : classes = []
  · subst h
    simp [dropEndSpace]
  · rw [join_map_append_space h, String.toList_append, dropEndSpace]
    simp

/-- The stems of some blocks and an empty one compose to the classes in a row. -/
theorem composeClasses_eq_intercalate (blocks : List String) (names : List (Option String)) :
    composeClasses (blocks.map classStem ++ [""]) names =
      " ".intercalate (elementClasses blocks names) := by
  have hjoin : String.join (names.reduceOption.map fun name =>
      (name ++ " ").intercalate (blocks.map classStem ++ [""])) =
        String.join ((elementClasses blocks names).map (· ++ " ")) := by
    simp only [intercalate_stems]
    rw [← String.toList_inj, elementClasses, List.map_flatMap]
    simp [List.flatMap_map, List.flatMap_assoc]
  rw [composeClasses, hjoin, dropEndSpace_join, String.ofList_toList]

/-- Only the last stem is empty. -/
theorem classStem_ne_empty (block : String) : classStem block ≠ "" := by
  intro h
  have hlist := congrArg String.toList h
  simp [classStem, nameDelimiter] at hlist

end Composing

/-! ## Chains -/

namespace Session

variable {s : Session} {id : String} {template : Template}

/-- The block names of a template and of its ancestors, its own first. -/
def blocksOf (s : Session) (id : String) : List String :=
  (lineage s.templates id).flatMap fun entry => entry.2.blockNames

theorem chainStems_chain (s : Session) (id : String) :
    chainStems (s.chain id) = (s.blocksOf id).map classStem ++ [""] := by
  rw [chainStems, chain, blocksOf, List.flatMap_map, List.map_flatMap]
  rfl

/-- Behind the names of a template come those of its parent. -/
theorem Sound.blocksOf_eq (hs : s.Sound) (h : s.template? id = some template) :
    s.blocksOf id = template.blockNames ++ template.parent.elim [] s.blocksOf := by
  rw [blocksOf, hs.ordered.lineage_eq h, List.flatMap_cons]
  cases template.parent <;> rfl

/-- A template with children is not renamed. -/
theorem setNames_of_shared (h : s.template? id = some template) (hshared : s.isShared id = true)
    (names : List String) : s.setNames id names = (.error (.shared id), s) := by
  rw [setNames, h]
  dsimp only
  rw [if_pos hshared]

/-- After any run, the stems of a template are the names of its chain, its own first and those of
its topmost ancestor last, each with its delimiter, and one empty stem behind them.  The text in
place of an open class attribute consists of one class for each name that is not empty and each
of these blocks, with single spaces between them.  A template with children keeps its names. -/
theorem stems_follow_chain (actions : List Action) (id : String) (template : Template)
    (h : (Session.initial.run actions).2.template? id = some template) :
    let s := (Session.initial.run actions).2
    s.blocksOf id = template.blockNames ++ template.parent.elim [] s.blocksOf ∧
      template.stems = (s.blocksOf id).map (· ++ "__") ++ [""] ∧
      template.stems.count "" = 1 ∧
      (∀ names, (Piece.classes names).write template.stems =
        " ".intercalate (elementClasses (s.blocksOf id) names)) ∧
      (s.isShared id = true →
        ∀ names, s.perform (.rename id names) = (.error (.shared id), s)) := by
  intro s
  have hs : s.Sound := Sound.initial.run actions
  have hstems : template.stems = (s.blocksOf id).map classStem ++ [""] := by
    rw [hs.stems h, chainStems_chain]
  refine ⟨hs.blocksOf_eq h, hstems, ?_, ?_, ?_⟩
  · rw [hstems, List.count_append, List.count_eq_zero.2 ?_]
    · rfl
    · simp [classStem_ne_empty]
  · intro names
    rw [Piece.write, hstems, composeClasses_eq_intercalate]
  · intro hshared names
    exact setNames_of_shared h hshared names

/-- A template with two names, one that is derived from it and renamed, and one that is derived
from that. -/
def renamedMiddle : List Action :=
  [.create "top" (.block ⟨none, none, [], ⟨0, ""⟩⟩) ⟨none, none, some ["a", "b"]⟩,
    .derive "middle" "top" "c", .rename "middle" ["d", "e"], .derive "bottom" "middle" "f",
    .rename "middle" ["g"]]

theorem renamedMiddle_stems :
    (Session.initial.run renamedMiddle).2.blocksOf "bottom" = ["f", "d", "e", "a", "b"] ∧
      (Piece.classes [some "x", none]).write ["f__", "d__", "e__", "a__", "b__", ""] =
        "f__x d__x e__x a__x b__x" := by
  obtain ⟨-, -, -, hwrite, -⟩ := stems_follow_chain renamedMiddle "bottom"
    ⟨none, some "middle", ["f"], ["f__", "d__", "e__", "a__", "b__", ""]⟩ rfl
  exact ⟨rfl, (hwrite [some "x", none]).trans rfl⟩

end Session

end BemMarkup
