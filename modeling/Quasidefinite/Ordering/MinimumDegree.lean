import Quasidefinite.Ordering.Basic

/-!
# Ordering by approximate minimum degree

The search eliminates one variable after the other, always one whose degree in the graph of the
remaining matrix is estimated to be least. The graph is kept as a quotient graph: a variable
knows the variables it is still joined to directly and the *elements* it belongs to, an element
being a variable already eliminated together with the variables its elimination joined to each
other. Four devices keep the graph small:

* an element all of whose variables lie in the current front is absorbed into it;
* a variable left with no neighbour outside the front is eliminated with the pivot;
* variables with the same neighbours are merged and from then on move as one;
* rows with many entries are set aside before the search and ordered last.

The order is read off the tree of elements, children before parents and the child with the
largest front last. The search is a heuristic: what it proposes is checked, not proved, to be a
permutation (`FillOrdering.ofSearch`). Where two choices are equally good, the order of the lists
below decides, so it is part of the rule.
-/

namespace Quasidefinite

namespace MinimumDegree

/-! ## 1. The graph of the matrix -/

/-- Holds of a list of strictly increasing rows. -/
def increasing : List Nat → Bool
  | i :: j :: rest => decide (i < j) && increasing (j :: rest)
  | _ => true

/-- The columns of the transposed pattern, duplicates removed. -/
def transposed (size : Nat) (columns : List (List Nat)) : List (List Nat) :=
  (columns.zipIdx.foldl
    (fun lists (rows, j) =>
      rows.eraseDups.foldl (fun lists i => lists.modify i (·.push j)) lists)
    (Array.replicate size #[])).toList.map Array.toList

/-- The pairs of different indices joined by an entry, in the order in which they are found: the
    columns as they stand if each is sorted, and those of the transposed pattern otherwise. -/
def edges (size : Nat) (columns : List (List Nat)) : List (Nat × Nat) :=
  let columns := if columns.all increasing then columns else transposed size columns
  columns.zipIdx.flatMap fun (rows, j) =>
    rows.filterMap fun i => if i = j then none else some (i, j)

/-- The neighbours of every index, in the order of the edges. -/
def neighbours (size : Nat) (columns : List (List Nat)) : Array (List Nat) :=
  ((edges size columns).foldl
    (fun lists (i, j) => (lists.modify i (·.push j)).modify j (·.push i))
    (Array.replicate size #[])).map Array.toList

/-- The number of neighbours above which a row is set aside. -/
def denseLimit (size : Nat) (denseScale : Float) : Nat :=
  let density := 10.0 * denseScale
  let limit :=
    if density < 0.0 then size - 2
    else (density * Float.sqrt size.toFloat).toUInt64.toNat
  min size (max 16 limit)

/-! ## 2. The quotient graph -/

/-- The state of the search. -/
structure Graph where
  /-- The number of indices. -/
  size : Nat
  /-- The elements a variable belongs to. -/
  elements : Array (List Nat)
  /-- The variables a variable is joined to directly, or those of an element. -/
  vars : Array (List Nat)
  /-- How many indices a variable or element stands for; zero once it is absorbed. -/
  weight : Array Nat
  /-- The estimated degree of a variable, or the weight of the variables of an element. -/
  degree : Array Nat
  /-- The size of the front of an element: its own weight and that of its variables. -/
  front : Array Nat
  /-- The variable or element an index was absorbed into. -/
  parent : Array (Option Nat)
  /-- Marks the elements that are absorbed. -/
  absorbed : Array Bool
  /-- The variables of each degree, the one most recently entered first. -/
  byDegree : Array (List Nat)
  /-- The weight eliminated or set aside so far. -/
  eliminated : Nat
  /-- A lower bound for the least degree. -/
  least : Nat

namespace Graph

/-- The weight of an index. -/
def weightOf (g : Graph) (i : Nat) : Nat := g.weight.getD i 0

/-- The degree of an index. -/
def degreeOf (g : Graph) (i : Nat) : Nat := g.degree.getD i 0

/-- Enters index `i` in the graph: alone, as an element of its own; with too many neighbours,
    set aside; or as a variable of its degree. -/
def enter (limit : Nat) (g : Graph) (i : Nat) : Graph :=
  let d := g.degreeOf i
  if d = 0 then
    { g with
      front := g.front.setIfInBounds i 1
      absorbed := g.absorbed.setIfInBounds i true
      eliminated := g.eliminated + 1 }
  else if limit < d then
    { g with weight := g.weight.setIfInBounds i 0, eliminated := g.eliminated + 1 }
  else
    { g with byDegree := g.byDegree.modify d (i :: ·) }

/-- The graph before the first elimination. -/
def initial (size : Nat) (columns : List (List Nat)) (limit : Nat) : Graph :=
  let joined := neighbours size columns
  (List.range size).foldl (enter limit)
    { size
      elements := Array.replicate size []
      vars := joined
      weight := Array.replicate size 1
      degree := joined.map List.length
      front := Array.replicate size 0
      parent := Array.replicate size none
      absorbed := Array.replicate size false
      byDegree := Array.replicate size []
      eliminated := 0
      least := 0 }

/-- The first degree from `d` on that a variable has, and the variable entered last with it. -/
def leastDegree? (g : Graph) : (steps d : Nat) → Option (Nat × Nat)
  | 0, _ => none
  | steps + 1, d =>
    match g.byDegree.getD d [] with
    | i :: _ => some (d, i)
    | [] => g.leastDegree? steps (d + 1)

/-! ## 3. One elimination -/

/-- The elimination of a pivot under way. -/
structure Pivot where
  /-- The graph. -/
  graph : Graph
  /-- The pivot. -/
  index : Nat
  /-- The weight eliminated with the pivot. -/
  weight : Nat
  /-- The weight of the variables of the front. -/
  degree : Nat
  /-- The variables of the front, in the order in which they joined it. -/
  members : Array Nat
  /-- Marks the pivot and the variables that have joined its front. -/
  joined : Array Bool
  /-- The variables of the front by the hash of their neighbours, the one most recently entered
      first. -/
  byHash : Array (List Nat)
  /-- The hash of each variable of the front. -/
  hash : Array Nat

namespace Pivot

/-- Lets variable `i` join the front, unless it is absorbed or has joined already. -/
def join (p : Pivot) (i : Nat) : Pivot :=
  let w := p.graph.weightOf i
  if w = 0 ∨ p.joined.getD i false then p
  else
    { p with
      degree := p.degree + w
      joined := p.joined.setIfInBounds i true
      members := p.members.push i
      graph := { p.graph with
        byDegree := p.graph.byDegree.modify (p.graph.degreeOf i) (·.erase i) } }

/-- Marks element `e` as absorbed into the pivot. -/
def absorb (p : Pivot) (e : Nat) : Pivot :=
  { p with graph := { p.graph with
      parent := p.graph.parent.setIfInBounds e (some p.index)
      absorbed := p.graph.absorbed.setIfInBounds e true } }

/-- Takes the pivot out of its list and gathers its front: the variables of its elements, which
    are absorbed, and then those it is joined to directly. -/
def gather (g : Graph) (index degree : Nat) : Pivot :=
  let start : Pivot :=
    { graph := { g with
        byDegree := g.byDegree.modify degree (·.drop 1)
        eliminated := g.eliminated + g.weightOf index
        least := degree }
      index
      weight := g.weightOf index
      degree := 0
      members := #[]
      joined := (Array.replicate g.size false).setIfInBounds index true
      byHash := Array.replicate g.size []
      hash := Array.replicate g.size 0 }
  let p := (g.elements.getD index []).foldl
    (fun p e => ((p.graph.vars.getD e []).foldl join p).absorb e) start
  let p := (g.vars.getD index []).foldl join p
  { p with graph := { p.graph with
      degree := p.graph.degree.setIfInBounds index p.degree
      front := p.graph.front.setIfInBounds index (p.weight + p.degree) } }

/-- For every element that meets the front, the weight of its variables outside the front. -/
def outside (p : Pivot) : Array (Option Nat) :=
  p.members.foldl
    (fun out i =>
      (p.graph.elements.getD i []).foldl
        (fun out e =>
          if p.graph.absorbed.getD e false then out
          else
            out.modify e fun known =>
              some (known.getD (p.graph.degreeOf e) - p.graph.weightOf i))
        out)
    (Array.replicate p.graph.size none)

/-- Moves the first element of a list to its end. -/
def rotated (xs : List Nat) : List Nat := xs.drop 1 ++ xs.take 1

/-- Sorts the elements of variable `i` into those that reach outside the front, which are kept
    together with the sum of their weights outside, and those that do not, which are absorbed. -/
def keepElements (out : Array (Option Nat)) (p : Pivot) (i : Nat) : Pivot × List Nat × Nat :=
  (p.graph.elements.getD i []).foldl
    (fun (p, kept, total) e =>
      if p.graph.absorbed.getD e false then (p, kept, total)
      else
        match (out.getD e none).getD 0 with
        | 0 => (p.absorb e, kept, total)
        | weight => (p, kept ++ [e], total + weight))
    (p, [], 0)

/-- Renews the neighbours and the degree of variable `i` of the front, or eliminates it with the
    pivot if no neighbour outside the front is left. -/
def renew (out : Array (Option Nat)) (p : Pivot) (i : Nat) : Pivot :=
  let (p, elements, elementWeight) := keepElements out p i
  let vars := (p.graph.vars.getD i []).filter fun j =>
    decide (p.graph.weightOf j ≠ 0) && !p.joined.getD j false
  if elements.isEmpty && vars.isEmpty then
    let w := p.graph.weightOf i
    { p with
      weight := p.weight + w
      degree := p.degree - w
      graph := { p.graph with
        parent := p.graph.parent.setIfInBounds i (some p.index)
        weight := p.graph.weight.setIfInBounds i 0
        eliminated := p.graph.eliminated + w } }
  else
    let degree := vars.foldl (fun degree j => degree + p.graph.weightOf j) elementWeight
    let hash := (elements ++ vars).foldl (· + ·) 0 % p.graph.size
    { p with
      byHash := p.byHash.modify hash (i :: ·)
      hash := p.hash.setIfInBounds i hash
      graph := { p.graph with
        degree := p.graph.degree.modify i (min · degree)
        elements := p.graph.elements.setIfInBounds i (p.index :: rotated elements)
        vars := p.graph.vars.setIfInBounds i (rotated vars) } }

/-- Holds if two variables of the front have the same neighbours. -/
def indistinguishable (g : Graph) (i j : Nat) : Bool :=
  let ei := g.elements.getD i []
  let ej := g.elements.getD j []
  let vi := g.vars.getD i []
  let vj := g.vars.getD j []
  ei.length == ej.length && vi.length == vj.length &&
    ej.all (fun e => ei.contains e) && vj.all (fun v => vi.contains v)

/-- Merges variable `j` into variable `i`. -/
def merge (i : Nat) (g : Graph) (j : Nat) : Graph :=
  { g with
    parent := g.parent.setIfInBounds j (some i)
    weight := (g.weight.modify i (· + g.weightOf j)).setIfInBounds j 0 }

/-- Merges into the first variable of a list all those that cannot be told from it, and goes on
    with the others. The first argument bounds the number of rounds. -/
def mergeAll : (rounds : Nat) → Graph → List Nat → Graph
  | _, g, [] => g
  | 0, g, _ :: _ => g
  | rounds + 1, g, i :: rest =>
    let (same, other) := rest.partition (indistinguishable g i)
    mergeAll rounds (same.foldl (merge i) g) other

/-- Compares the variables of the front that share the hash of variable `i`. -/
def compare (p : Pivot) (i : Nat) : Pivot :=
  if p.graph.weightOf i = 0 then p
  else
    let hash := p.hash.getD i 0
    let bucket := p.byHash.getD hash []
    { p with
      byHash := p.byHash.setIfInBounds hash []
      graph := mergeAll bucket.length p.graph bucket }

/-- Enters variable `i` of the front in the list of its new degree. -/
def reenter (p : Pivot) (i : Nat) : Pivot :=
  let g := p.graph
  let w := g.weightOf i
  if w = 0 then p
  else
    let degree := min (g.degreeOf i + p.degree - w) (g.size - g.eliminated - w)
    { p with graph := { g with
        byDegree := g.byDegree.modify degree (i :: ·)
        least := min g.least degree
        degree := g.degree.setIfInBounds i degree } }

/-- Turns the pivot into an element of the variables of its front that are left. -/
def close (p : Pivot) : Graph :=
  let g := p.graph
  let left := p.members.toList.filter fun i => decide (g.weightOf i ≠ 0)
  { g with
    weight := g.weight.setIfInBounds p.index p.weight
    elements := g.elements.setIfInBounds p.index []
    vars := g.vars.setIfInBounds p.index left
    absorbed := g.absorbed.setIfInBounds p.index left.isEmpty }

end Pivot

/-- Eliminates a variable of the given degree. -/
def eliminate (g : Graph) (index degree : Nat) : Graph :=
  let p := Pivot.gather g index degree
  let p := p.members.foldl (Pivot.renew p.outside) p
  let p := { p with graph := { p.graph with
    degree := p.graph.degree.setIfInBounds index p.degree } }
  let p := p.members.foldl Pivot.compare p
  let p := p.members.foldl Pivot.reenter p
  p.close

/-- Eliminates variables until none is left. The first argument bounds the number of steps. -/
def eliminateAll : (steps : Nat) → Graph → Graph
  | 0, g => g
  | steps + 1, g =>
    if g.size ≤ g.eliminated then g
    else
      match g.leastDegree? g.size g.least with
      | none => g
      | some (degree, index) => eliminateAll steps (g.eliminate index degree)

/-! ## 4. The order -/

/-- The element that an absorbed variable was eliminated with, following its parents from `j`
    on. The first argument bounds the number of steps. -/
def elementOf (g : Graph) : (steps j : Nat) → Option Nat
  | 0, _ => none
  | steps + 1, j =>
    if g.weightOf j ≠ 0 then some j
    else (g.parent.getD j none).bind (g.elementOf steps)

/-- The children of every element, the last of those with the largest front moved to the end. -/
def children (g : Graph) : Array (List Nat) :=
  let lists := (List.range g.size).foldl
    (fun lists j =>
      match g.parent.getD j none with
      | some i => if g.weightOf j ≠ 0 then lists.modify i (·.push j) else lists
      | none => lists)
    (Array.replicate g.size #[])
  lists.map fun siblings =>
    match siblings.toList with
    | [] => []
    | first :: rest =>
      let largest := rest.foldl
        (fun best j => if g.front.getD best 0 ≤ g.front.getD j 0 then j else best) first
      siblings.toList.erase largest ++ [largest]

/-- The elements below and including element `i`, children first. The first argument bounds the
    height of the tree. -/
def below (children : Array (List Nat)) : (height i : Nat) → List Nat
  | 0, _ => []
  | height + 1, i => (children.getD i []).flatMap (below children height) ++ [i]

/-- The order of elimination: the elements from the leaves of their tree to its roots, each
    preceded by the variables absorbed into it, and the indices that were set aside. -/
def order (g : Graph) : Array Nat :=
  let indices := List.range g.size
  let roots := indices.filter fun i => g.parent.getD i none == none && g.weightOf i != 0
  let aside := indices.filter fun i => g.parent.getD i none == none && g.weightOf i == 0
  let members := indices.foldl
    (fun lists i =>
      if g.weightOf i = 0 then
        match g.elementOf g.size i with
        | some e => lists.modify e (·.push i)
        | none => lists
      else lists)
    (Array.replicate g.size #[])
  let sequence := roots.flatMap (below g.children g.size)
  (sequence.flatMap (fun e => (members.getD e #[]).toList ++ [e]) ++ aside).toArray

end Graph

/-- The order that the search finds for the columns of a pattern. -/
def propose (size : Nat) (columns : List (List Nat)) (denseScale : Float) : Array Nat :=
  ((Graph.initial size columns (denseLimit size denseScale)).eliminateAll size).order

end MinimumDegree

/-- The ordering by approximate minimum degree. -/
def FillOrdering.minimumDegree : FillOrdering := .ofSearch MinimumDegree.propose

end Quasidefinite
