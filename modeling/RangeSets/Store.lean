import RangeSets.PointSet
import RangeSets.WorthMap.Mutation
/-!
# Stores of named sets

A store keeps sets and maps under names, and the trails that hear of their changes. A set may be
watched: its changes then go to the trail named in the watch, under the tag of the watch. A set
that is put under a name takes the place of what was there, and nobody watches it.
-/

namespace RangeSets

structure Named (σ : Type) where
  pairs : List (String × σ)

namespace Named

variable {σ : Type}

def empty : Named σ := ⟨[]⟩

def get? (n : Named σ) (name : String) : Option σ := n.pairs.lookup name

def put (n : Named σ) (name : String) (value : σ) : Named σ :=
  ⟨(name, value) :: n.pairs.filter fun pair => pair.1 ≠ name⟩

end Named

structure Watched (σ : Type) where
  value : σ
  watch? : Option Watch

/-- The trails by name. A trail that was never named is empty. -/
abbrev Trails (α : Type) := Named (Trail α)

namespace Trails

variable {α : Type}

def trail (t : Trails α) (name : String) : Trail α := (t.get? name).getD Trail.empty

/-- The trails after the changes of a watched value were told. -/
def tell (t : Trails α) (watch? : Option Watch) (changes : List (Change α)) : Trails α :=
  match watch? with
  | some watch => t.put watch.trail ((t.trail watch.trail).hear watch.tag changes)
  | none => t

def take (t : Trails α) (name : String) : Trails α := t.put name (t.trail name).take

def news (earlier later : Trails α) : List (String × List (Event α)) :=
  later.pairs.filterMap fun (name, trail) =>
    match trail.heard.drop (earlier.trail name).heard.length with
    | [] => none
    | events => some (name, events)

end Trails

abbrev Shelf (σ : Type) := Named (Watched σ)

namespace Shelf

variable {σ α : Type}

def place (s : Shelf σ) (name : String) (value : σ) : Shelf σ := s.put name ⟨value, none⟩

def value? (s : Shelf σ) (name : String) : Option σ := (s.get? name).map Watched.value

def watch? (s : Shelf σ) (name : String) : Option Watch := (s.get? name).bind Watched.watch?

/-- Sets or takes away the watch on the value under a name. -/
def setWatch (s : Shelf σ) (name : String) (watch? : Option Watch) : Shelf σ :=
  match s.get? name with
  | some watched => s.put name { watched with watch? }
  | none => s

/-- Moves the watch on one value, if there is one, to another. -/
def moveWatch (s : Shelf σ) (source target : String) : Shelf σ :=
  match s.watch? source with
  | some watch => (s.setWatch source none).setWatch target (some watch)
  | none => s

/-- Changes the value under a name, and tells its changes. -/
def change (s : Shelf σ) (trails : Trails α) (name : String) (f : σ → σ × List (Change α)) :
    Shelf σ × Trails α :=
  match s.get? name with
  | some watched =>
      let (value, changes) := f watched.value
      (s.put name { watched with value }, trails.tell watched.watch? changes)
  | none => (s, trails)

/-- Changes the value under a name, and tells its changes, if the change succeeds. -/
def tryChange {ε : Type} (s : Shelf σ) (trails : Trails α) (name : String)
    (f : σ → Except ε (σ × List (Change α))) : Except ε (Shelf σ × Trails α) :=
  match s.get? name with
  | some watched =>
      (f watched.value).map fun (value, changes) =>
        (s.put name { watched with value }, trails.tell watched.watch? changes)
  | none => .ok (s, trails)

end Shelf

/-- Range sets and worth maps by name, with trails that both may share. -/
structure Store (α : Type) where
  sets : Shelf (RangeSet α)
  maps : Shelf (WorthMap α)
  trails : Trails α

namespace Store

variable {α : Type}

def empty : Store α := ⟨.empty, .empty, .empty⟩

def changeSet (s : Store α) (name : String) (f : RangeSet α → RangeSet α × List (Change α)) :
    Store α :=
  let (sets, trails) := s.sets.change s.trails name f
  { s with sets, trails }

def changeMap (s : Store α) (name : String)
    (f : WorthMap α → Except Fault (WorthMap α × List (Change α))) : Except Fault (Store α) :=
  (s.maps.tryChange s.trails name f).map fun (maps, trails) => { s with maps, trails }

end Store

structure PointStore (f : IntegerFormat) where
  sets : Shelf (PointSet f)
  trails : Trails (Fixed f)

namespace PointStore

variable {f : IntegerFormat}

def empty : PointStore f := ⟨.empty, .empty⟩

def change (s : PointStore f) (name : String)
    (g : PointSet f → Except (Refusal (Fixed f)) (PointSet f × List (Change (Fixed f)))) :
    Except (Refusal (Fixed f)) (PointStore f) :=
  (s.sets.tryChange s.trails name g).map fun (sets, trails) => ⟨sets, trails⟩

end PointStore

end RangeSets
