import VppJsonGateway.Lib.Bytes
import Mathlib.Algebra.BigOperators.Group.Finset.Basic
import Mathlib.Algebra.Order.BigOperators.Group.Finset
import Mathlib.Data.List.AList

/-!
# Directories and files

A directory maps names to the contents of files. The operations are those of a POSIX file
system on one directory, each with its whole effect: creating, renaming over, removing, and
writing at an offset or cutting a file to a length, which pad with zeros.
-/

namespace Lib

/-- A directory with names in `ν`. -/
abbrev Files (ν : Type) := AList fun _ : ν => Bytes

/-- `pwrite`: the octets replaced from `offset` on. -/
def overwrite (content : Bytes) (offset : Nat) (data : Bytes) : Bytes :=
  content.take offset ++ List.replicate (offset - content.length) 0 ++ data ++
    content.drop (offset + data.length)

/-- `ftruncate`: the content cut or padded to `n` octets. -/
def truncate (content : Bytes) (n : Nat) : Bytes :=
  content.take n ++ List.replicate (n - content.length) 0

/-- What stands before the offset is kept. -/
theorem take_overwrite {content data : Bytes} {offset n : Nat} (hn : n ≤ offset)
    (hlen : offset ≤ content.length) : (overwrite content offset data).take n = content.take n := by
  have hzero : offset - content.length = 0 := by omega
  rw [overwrite, hzero, List.replicate_zero, List.append_nil, List.append_assoc,
    List.take_append_of_le_length (by rw [List.length_take]; omega), List.take_take,
    Nat.min_eq_left hn]

/-- A file grows only beyond its end. -/
theorem length_overwrite {content data : Bytes} {offset : Nat} (hlen : offset ≤ content.length) :
    (overwrite content offset data).length = max content.length (offset + data.length) := by
  simp only [overwrite, List.length_append, List.length_take, List.length_replicate,
    List.length_drop]
  omega

/-- Writing some octets and then the ones after them is writing all of them. -/
theorem overwrite_overwrite {content a b : Bytes} {offset : Nat} (hlen : offset ≤ content.length) :
    overwrite (overwrite content offset a) (offset + a.length) b = overwrite content offset (a ++ b) := by
  have hzero : offset - content.length = 0 := by omega
  have hzero' : offset + a.length - (overwrite content offset a).length = 0 := by
    rw [length_overwrite hlen]
    omega
  have htake : (overwrite content offset a).take (offset + a.length) = content.take offset ++ a := by
    rw [overwrite, hzero, List.replicate_zero, List.append_nil]
    refine List.take_left' ?_
    rw [List.length_append, List.length_take]
    omega
  have hdrop : (overwrite content offset a).drop (offset + a.length + b.length) =
      content.drop (offset + (a ++ b).length) := by
    rw [overwrite, hzero, List.replicate_zero, List.append_nil, List.drop_append, List.drop_drop]
    have hlen' : (content.take offset ++ a).length = offset + a.length := by
      rw [List.length_append, List.length_take]
      omega
    rw [hlen', List.drop_eq_nil_of_le (by omega), List.nil_append, List.length_append]
    congr 1
    omega
  rw [overwrite, hzero', List.replicate_zero, List.append_nil, htake, hdrop, overwrite, hzero,
    List.replicate_zero, List.append_nil, List.append_assoc (content.take offset)]

/-- Writing at an offset and cutting there leaves what stood before, and the octets written. -/
theorem truncate_overwrite {content data : Bytes} {offset : Nat} (hlen : offset ≤ content.length) :
    truncate (overwrite content offset data) (offset + data.length) =
      content.take offset ++ data := by
  have hzero : offset - content.length = 0 := by omega
  have hzero' : offset + data.length - (overwrite content offset data).length = 0 := by
    rw [length_overwrite hlen]
    omega
  rw [truncate, hzero', List.replicate_zero, List.append_nil, overwrite, hzero,
    List.replicate_zero, List.append_nil]
  refine List.take_left' ?_
  rw [List.length_append, List.length_take]
  omega

namespace Files

variable {ν : Type} [DecidableEq ν]

/-- `rename`: the file `a` takes the place of `b`. -/
def rename (fs : Files ν) (a b : ν) : Files ν :=
  match fs.lookup a with
  | none => fs
  | some content => (fs.erase a).insert b content

/-- The new name has the content of the old one. -/
theorem lookup_rename_target {fs : Files ν} {a b : ν} {content : Bytes}
    (h : fs.lookup a = some content) : (fs.rename a b).lookup b = some content := by
  rw [rename, h]
  exact AList.lookup_insert _

/-- The other names stay. -/
theorem lookup_rename_of_ne {fs : Files ν} {a b n : ν} (ha : n ≠ a) (hb : n ≠ b) :
    (fs.rename a b).lookup n = fs.lookup n := by
  unfold rename
  split
  · rfl
  · rw [AList.lookup_insert_ne hb, AList.lookup_erase_ne ha]

end Files

/-! ## Sums over a listing -/

section Listing

variable {α β : Type} [DecidableEq α]

/-- The weight of what a listing `l` finds with `f`, as a sum over any set that covers it. -/
theorem sum_listing {f : α → Option β} {l : List α} (hl : l.Nodup) (w : β → Nat) {S : Finset α}
    (hcover : ∀ x b, f x = some b → x ∈ l) (hS : ∀ x b, f x = some b → x ∈ S) :
    ((l.filterMap f).map w).sum = ∑ x ∈ S, (f x).elim 0 w := by
  have hlist : ∀ l : List α, ((l.filterMap f).map w).sum =
      (l.map fun x => (f x).elim 0 w).sum := by
    intro l
    induction l with
    | nil => rfl
    | cons x l ih =>
      cases hx : f x with
      | none => simp [hx, ih]
      | some b => simp [hx, ih]
  have hzero : ∀ {T : Finset α} {x : α}, (∀ b, f x = some b → x ∈ T) → x ∉ T →
      (f x).elim 0 w = 0 := by
    intro T x hT hx
    cases hf : f x with
    | none => rfl
    | some b => exact absurd (hT b hf) hx
  rw [hlist, ← List.sum_toFinset _ hl]
  refine Finset.sum_congr_of_eq_on_inter ?_ ?_ fun _ _ _ => rfl
  · exact fun x _ hx => hzero (hS x) hx
  · exact fun x _ hx => hzero (fun b hb => List.mem_toFinset.2 (hcover x b hb)) hx

/-- A listing that finds no more weighs no more. -/
theorem sum_listing_le {f f' : α → Option β} {l l' : List α} (hl : l.Nodup) (hl' : l'.Nodup)
    (w : β → Nat) (hcover : ∀ x b, f x = some b → x ∈ l)
    (hcover' : ∀ x b, f' x = some b → x ∈ l')
    (hle : ∀ x, (f' x).elim 0 w ≤ (f x).elim 0 w) :
    ((l'.filterMap f').map w).sum ≤ ((l.filterMap f).map w).sum := by
  rw [sum_listing (S := l.toFinset ∪ l'.toFinset) hl w hcover
      fun x b h => by simp [hcover x b h],
    sum_listing (S := l.toFinset ∪ l'.toFinset) hl' w hcover' fun x b h => by simp [hcover' x b h]]
  exact Finset.sum_le_sum fun x _ => hle x

/-- A listing that finds one more weighs that much more. -/
theorem sum_listing_add {f f' : α → Option β} {l l' : List α} (hl : l.Nodup) (hl' : l'.Nodup)
    (w : β → Nat) (hcover : ∀ x b, f x = some b → x ∈ l)
    (hcover' : ∀ x b, f' x = some b → x ∈ l') {a : α} {b : β} (hnone : f a = none)
    (hsome : f' a = some b) (hsame : ∀ x, x ≠ a → f' x = f x) :
    ((l'.filterMap f').map w).sum = ((l.filterMap f).map w).sum + w b := by
  have ha : a ∈ l' := hcover' a b hsome
  rw [sum_listing (S := l'.toFinset) hl w hcover ?_,
    sum_listing (S := l'.toFinset) hl' w hcover' fun x b h => by simp [hcover' x b h]]
  · rw [← Finset.add_sum_erase _ _ (List.mem_toFinset.2 ha),
      ← Finset.add_sum_erase _ (fun x => (f x).elim 0 w) (List.mem_toFinset.2 ha)]
    have hrest : ∑ x ∈ l'.toFinset.erase a, (f' x).elim 0 w =
        ∑ x ∈ l'.toFinset.erase a, (f x).elim 0 w :=
      Finset.sum_congr rfl fun x hx => by rw [hsame x (Finset.ne_of_mem_erase hx)]
    simp only [hrest, hnone, hsome, Option.elim_none, Option.elim_some]
    omega
  · intro x c hx
    have hne : x ≠ a := by
      rintro rfl
      rw [hnone] at hx
      cases hx
    exact List.mem_toFinset.2 (hcover' x c ((hsame x hne).trans hx))

end Listing

end Lib
