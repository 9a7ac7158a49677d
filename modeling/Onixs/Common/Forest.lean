import Mathlib.Logic.Basic

/-!
# Walking through a forest of mounted trees

A forest of directory trees over any type of nodes and of names. Two functions connect the
trees: `up` says in which directory a name is looked up, which is another one than the
current directory when the name leads out of a mounted root, and `down` leads from a
mount point to the root mounted on it.

A path is a list of names that are walked through, and one more name or none, which is only
looked up (`Onixs.Forest.walk`). Walks compose (`Onixs.Forest.walk_append`), so that
what one name does can be inserted anywhere in a path.
-/

namespace Onixs

/-- Directory trees with mount points. -/
structure Forest (Node Name : Type) where
  /-- The entry of a directory with a given name. -/
  child : Node → Name → Option Node
  /-- The directory a name is looked up in. -/
  up : Node → Name → Node
  /-- The root that is mounted on a node, or the node. -/
  down : Node → Node
  /-- A directory one may walk through. -/
  pass : Node → Bool

namespace Forest

variable {Node Name : Type} (F : Forest Node Name)

/-- What a name leads to. -/
def lookup (n : Node) (name : Name) : Option Node := (F.child (F.up n name) name).map F.down

/-- Walk through the directory `name` leads to. -/
def enter (n : Node) (name : Name) : Option Node := (F.lookup n name).filter F.pass

/-- Walk through `names`, and look up `last` if there is one more name. -/
def walk (n : Node) (names : List Name) (last : Option Name) : Option Node :=
  (names.foldlM F.enter n).bind fun m => last.elim (some m) (F.lookup m)

/-- The walk through the names comes to one that is not there. -/
def misses : Node → List Name → Bool
  | _, [] => false
  | n, name :: names => (F.lookup n name).elim true fun m => F.pass m && misses m names

variable {F} {n : Node} {name : Name} {names : List Name} {last : Option Name}

theorem walk_nil : F.walk n [] last = last.elim (some n) (F.lookup n) := rfl

theorem walk_cons : F.walk n (name :: names) last
    = (F.enter n name).bind fun m => F.walk m names last := by
  rw [walk, List.foldlM_cons]
  exact Option.bind_assoc _ _ _

/-- **Walks compose.** -/
theorem walk_append (names' : List Name) : F.walk n (names ++ names') last
    = (F.walk n names none).bind fun m => F.walk m names' last := by
  induction names generalizing n with
  | nil => rfl
  | cons name names ih =>
    rw [List.cons_append, walk_cons, walk_cons, Option.bind_assoc]
    exact congrArg _ (funext fun m => ih)

end Forest

end Onixs
