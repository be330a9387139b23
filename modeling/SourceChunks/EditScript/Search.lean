/-!
# Searching for a shortest edit script

The search goes through the points `(x, y)` of the grid that has `a` along one side and `b` along
the other: a step right deletes an element of `a`, a step down inserts an element of `b`, and a
diagonal step keeps an element that both have. Round `d` finds, on each diagonal `k = x - y`, how
far a path with `d` steps off the diagonals can reach; the first round that reaches the far corner
tells the least number of edits. The reaches before each round are kept, so that the path can be
followed back from the corner.

Every look-up is checked: an answer of `none` would mean that the search left its arrays, or that
it ran out of rounds without reaching the corner.
-/

namespace SourceChunks.EditScript

/-- One element of an edit script. -/
inductive Step where
  | keep
  | delete
  | insert
  deriving DecidableEq, Repr

/-- The element at an index, which may lie outside. -/
def readAt? {α : Type} (xs : Array α) (i : Int) : Option α :=
  if 0 ≤ i then xs[i.toNat]? else none

/-- The array with the element at an index replaced, if the index lies inside. -/
def writeAt? {α : Type} (xs : Array α) (i : Int) (v : α) : Option (Array α) :=
  if 0 ≤ i ∧ i < xs.size then some (xs.setIfInBounds i.toNat v) else none

variable {α : Type} [DecidableEq α]

/-- Follow a diagonal as long as both sides agree. -/
def slide? (a b : Array α) (x y : Int) : Option (Int × Int) :=
  if x < a.size ∧ y < b.size then
    match readAt? a x, readAt? b y with
    | some u, some v => if u = v then slide? a b (x + 1) (y + 1) else some (x, y)
    | _, _ => none
  else some (x, y)
termination_by (a.size - x).toNat
decreasing_by omega

/-- The diagonals of a round from the lowest to the highest. -/
def diagonals (d : Nat) : List Int := (List.range (d + 1)).map fun (i : Nat) => 2 * (i : Int) - d

/-- The reaches, with diagonal `k` at index `offset + k`. -/
structure Frontier where
  /-- The index of diagonal zero. -/
  offset : Int
  /-- The greatest `x` reached on each diagonal. -/
  reach : Array Int

/-- The reach on a diagonal. -/
def Frontier.at? (f : Frontier) (k : Int) : Option Int := readAt? f.reach (f.offset + k)

/-- The frontier before the first round of a search over sides of `total` elements together. -/
def Frontier.start (total : Nat) : Frontier := ⟨total + 1, Array.replicate (2 * total + 3) 0⟩

/-- The reaches that round `d` reads, with diagonal `k` at index `k + d`. -/
def Frontier.slice (f : Frontier) (d : Nat) : Array Int :=
  f.reach.extract (f.offset - d).toNat (f.offset + d + 1).toNat

/-- The diagonal from which a path comes to diagonal `k` in round `d`, and the reach there. Of the
two neighbours the one that reaches farther is taken, the lower one if both reach equally far; the
outermost diagonals have only one neighbour to come from. -/
def comesFrom? (look? : Int → Option Int) (d : Nat) (k : Int) : Option (Int × Int) := do
  if k = -d then return (k + 1, ← look? (k + 1))
  else if k = d then return (k - 1, ← look? (k - 1))
  else
    let below ← look? (k - 1)
    let above ← look? (k + 1)
    return if below < above then (k + 1, above) else (k - 1, below)

/-- Go through the diagonals of round `d` until one reaches the corner. -/
def round? (a b : Array α) (d : Nat) : List Int → Frontier → Option (Frontier × Bool)
  | [], f => some (f, false)
  | k :: ks, f => do
    let (fromK, fromX) ← comesFrom? f.at? d k
    let start := if fromK = k + 1 then fromX else fromX + 1
    let (x, y) ← slide? a b start (start - k)
    let f := { f with reach := ← writeAt? f.reach (f.offset + k) x }
    if a.size ≤ x ∧ b.size ≤ y then return (f, true) else round? a b d ks f

/-- How a search ends. -/
inductive Outcome where
  /-- The corner was reached in round `d`; one slice was kept in each round. -/
  | reached (d : Nat) (slices : Array (Array Int))
  /-- More edits are needed than are allowed. -/
  | tooManyEdits

/-- Go through the rounds from round `d` on. -/
def rounds? (a b : Array α) (limit : Nat) :
    (remaining d : Nat) → Frontier → Array (Array Int) → Option Outcome
  | 0, _, _, _ => none
  | remaining + 1, d, f, slices =>
    if limit < d then some .tooManyEdits
    else do
      let slices := slices.push (f.slice d)
      let (f, done) ← round? a b d (diagonals d) f
      if done then return .reached d slices else rounds? a b limit remaining (d + 1) f slices

/-- A path from some point of the grid to the far corner. -/
structure Trail where
  /-- Where it starts along `a`. -/
  x : Int
  /-- Where it starts along `b`. -/
  y : Int
  /-- Its steps. -/
  steps : List Step

/-- The trail with diagonal steps in front of it. -/
def Trail.keep (t : Trail) (n : Nat) : Trail :=
  ⟨t.x - n, t.y - n, List.replicate n .keep ++ t.steps⟩

/-- Follow a trail back through rounds `d`, `d - 1`, … to the start of round zero. -/
def followBack? (slices : Array (Array Int)) : (d : Nat) → Trail → Option Trail
  | 0, t => some (t.keep (min t.x t.y).toNat)
  | d + 1, t => do
    let slice ← slices[d + 1]?
    let look? (k : Int) := readAt? slice (k + (d + 1))
    let (fromK, fromX) ← comesFrom? look? (d + 1) (t.x - t.y)
    let fromY := fromX - fromK
    let t := t.keep (min (t.x - fromX) (t.y - fromY)).toNat
    let step := if t.x = fromX then Step.insert else Step.delete
    followBack? slices d ⟨fromX, fromY, step :: t.steps⟩

/-- What is known about the edits between two sequences. -/
inductive Answer where
  /-- A shortest script. -/
  | script (steps : List Step)
  /-- There is no script within the allowed number of edits. -/
  | tooManyEdits
  deriving DecidableEq, Repr

/-- A shortest edit script from `a` to `b`, if one has at most `limit` deletions and insertions. -/
def search? (limit : Nat) (a b : Array α) : Option Answer :=
  let total := a.size + b.size
  if total = 0 then some (.script [])
  else do
    match ← rounds? a b limit (total + 1) 0 (Frontier.start total) #[] with
    | .tooManyEdits => return .tooManyEdits
    | .reached d slices =>
      return .script (← followBack? slices d ⟨a.size, b.size, []⟩).steps

end SourceChunks.EditScript
