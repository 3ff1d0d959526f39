import NeoListing.Listing.Plan
import NeoListing.Proofs.TableLookup

/-! # Landmarks of debug information

What is known about an address is what the first record for it says: records are taken method
by method, and within a method point by point.
-/

namespace NeoListing

namespace DebugInfo

def firstStart? (info : DebugInfo) (address : Int) : Option DebugMethod :=
  info.methods.find? fun m => m.first == address

def firstEnd? (info : DebugInfo) (address : Int) : Option DebugMethod :=
  info.methods.find? fun m => m.last == address

def points (info : DebugInfo) : List SequencePoint := info.methods.flatMap DebugMethod.points

def firstPoint? (info : DebugInfo) (address : Int) : Option SequencePoint :=
  info.points.find? fun p => p.address == address

end DebugInfo

namespace Landmarks

def putPoints (t : Table Int SequencePoint) (ps : List SequencePoint) : Table Int SequencePoint :=
  ps.foldl (fun t p => t.putNew p.address p) t

theorem foldl_addPoint (ps : List SequencePoint) (acc : Noted) :
    (ps.foldl addPoint acc).1 =
      ⟨acc.1.starts, acc.1.ends, putPoints acc.1.points ps⟩ := by
  induction ps generalizing acc with
  | nil => rfl
  | cons p ps ih =>
    rw [List.foldl_cons, ih]
    rfl

theorem addMethod_fst (acc : Noted) (m : DebugMethod) :
    (addMethod acc m).1 =
      ⟨acc.1.starts.putNew m.first m.fullName, acc.1.ends.putNew m.last m.fullName,
        putPoints acc.1.points m.points⟩ := by
  rw [addMethod, foldl_addPoint]
  rfl

theorem foldl_addMethod (ms : List DebugMethod) (acc : Noted) :
    (ms.foldl addMethod acc).1 =
      ⟨ms.foldl (fun t m => t.putNew m.first m.fullName) acc.1.starts,
        ms.foldl (fun t m => t.putNew m.last m.fullName) acc.1.ends,
        putPoints acc.1.points (ms.flatMap DebugMethod.points)⟩ := by
  induction ms generalizing acc with
  | nil => rfl
  | cons m ms ih =>
    rw [List.foldl_cons, ih, addMethod_fst]
    simp only [putPoints, List.flatMap_cons, List.foldl_append, List.foldl_cons]

/-- The first item with a key is the one found behind a row of first values. -/
theorem get?_foldl_putNew_map {α β : Type} (key : β → Int) (value : β → α) (items : List β)
    (address : Int) :
    Table.get? (items.foldl (fun t x => Table.putNew (key x) (value x) t) []) address =
      (items.find? fun x => key x == address).map value := by
  have hf : items.foldl (fun t x => Table.putNew (key x) (value x) t) [] =
      Table.ofFirstRows (items.map fun x => (key x, value x)) := by
    rw [Table.ofFirstRows, List.foldl_map]
  rw [hf, Table.get?_ofFirstRows, Table.get?_map]

variable (info : DebugInfo) (address : Int)

theorem get?_starts_ofDebugInfo :
    (ofDebugInfo info).1.starts.get? address =
      (info.firstStart? address).map DebugMethod.fullName := by
  rw [ofDebugInfo, foldl_addMethod]
  exact get?_foldl_putNew_map DebugMethod.first DebugMethod.fullName info.methods address

theorem get?_ends_ofDebugInfo :
    (ofDebugInfo info).1.ends.get? address =
      (info.firstEnd? address).map DebugMethod.fullName := by
  rw [ofDebugInfo, foldl_addMethod]
  exact get?_foldl_putNew_map DebugMethod.last DebugMethod.fullName info.methods address

theorem get?_points_ofDebugInfo :
    (ofDebugInfo info).1.points.get? address = info.firstPoint? address := by
  rw [ofDebugInfo, foldl_addMethod]
  have h := get?_foldl_putNew_map SequencePoint.address id info.points address
  rwa [Option.map_id] at h

end Landmarks

end NeoListing
