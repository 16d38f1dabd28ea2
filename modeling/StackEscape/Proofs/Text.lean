import StackEscape.Text

/-!
# Reading texts

A loop goes on where its round takes something off the text. So a loop whose round reads an item
and the separator behind it reads a whole list of items, up to the text that closes it. And a number
that is written with at least so many hexadecimal digits, in either case, is the number that so many
digits spell, if it fits.
-/

namespace StackEscape.Text

/-! ## Loops over readers -/

section Loops

variable {σ α : Type}

section Round

variable {round : σ → Reader (Round σ α)} {state next : σ} {cs rest : List Char}

theorem iterate_of_done {result : α} (h : round state cs = some (.done result, rest)) :
    iterate round state cs = some (result, rest) := by
  rw [iterate, h]

theorem iterate_of_more (h : round state cs = some (.more next, rest))
    (hlt : rest.length < cs.length) : iterate round state cs = iterate round next rest := by
  rw [iterate, h]
  exact if_pos hlt

end Round

/-- A loop goes through texts of items, each of which takes one round: `collect xs` is its state
behind the items `xs`. -/
theorem iterate_flatMap {β : Type} {round : σ → Reader (Round σ α)} {write : β → List Char}
    (collect : List β → σ) {xs : List β} (hwrite : ∀ x ∈ xs, write x ≠ [])
    (hround : ∀ seen x todo, xs = seen ++ x :: todo → ∀ rest,
      round (collect seen) (write x ++ rest) = some (.more (collect (seen ++ [x])), rest))
    (rest : List Char) :
    iterate round (collect []) (xs.flatMap write ++ rest) = iterate round (collect xs) rest := by
  -- The induction is on the items to come, for all that were seen before them.
  suffices h : ∀ todo seen, xs = seen ++ todo →
      iterate round (collect seen) (todo.flatMap write ++ rest) = iterate round (collect xs) rest
    from h xs [] rfl
  intro todo
  induction todo with
  | nil =>
    intro seen hsplit
    rw [hsplit, List.append_nil, List.flatMap_nil, List.nil_append]
  | cons x todo ih =>
    intro seen hsplit
    have hpos : 0 < (write x).length :=
      List.length_pos_iff.mpr (hwrite x (hsplit ▸ List.mem_append_right seen List.mem_cons_self))
    rw [List.flatMap_cons, List.append_assoc, iterate_of_more (hround seen x todo hsplit _)]
    · exact ih (seen ++ [x]) (by rw [hsplit, List.append_assoc]; rfl)
    · simp only [List.length_append]
      omega

/-- A round of a loop that collects items in reverse: `text` is a text of the item `x`, which a
comma or what closes the list may follow. -/
structure ItemText (round : List α → Reader (Round (List α) (List α))) (close text : List Char)
    (x : α) : Prop where
  more : ∀ read rest, round read (text ++ ',' :: rest) = some (.more (x :: read), rest)
  done : ∀ read rest, round read (text ++ close ++ rest) = some (.done (x :: read).reverse, rest)

/-- A list of items with commas between them is read to its end. -/
theorem iterate_items {round : List α → Reader (Round (List α) (List α))} {close : List Char}
    {write : α → List Char} {text : List Char} {x : α} {xs : List α}
    (hx : ItemText round close text x) (hxs : ∀ y ∈ xs, ItemText round close (write y) y)
    (read : List α) (rest : List Char) :
    iterate round read (text ++ xs.flatMap (fun y => ',' :: write y) ++ close ++ rest) =
      some (read.reverse ++ x :: xs, rest) := by
  induction xs generalizing text x read with
  | nil =>
    rw [List.flatMap_nil, List.append_nil, iterate_of_done (hx.done read rest), List.reverse_cons]
  | cons y ys ih =>
    obtain ⟨hy, hys⟩ := List.forall_mem_cons.mp hxs
    have hsplit : text ++ (y :: ys).flatMap (fun y => ',' :: write y) ++ close ++ rest =
        text ++ ',' :: (write y ++ ys.flatMap (fun y => ',' :: write y) ++ close ++ rest) := by
      simp only [List.flatMap_cons, List.cons_append, List.append_assoc]
    rw [hsplit, iterate_of_more (hx.more read _), ih hy hys, List.reverse_cons, List.append_assoc]
    · rfl
    · simp only [List.length_append, List.length_cons]
      omega

end Loops

/-! ## Hexadecimal numbers -/

def pushDigit? (n : Nat) (c : Char) : Option Nat := (hexDigit? c).map (16 * n + ·)

/-- What keeps the value of each digit that is written. -/
def KeepsDigits (f : Char → Char) : Prop := ∀ d < 16, hexDigit? (f (Nat.digitChar d)) = some d

instance (f : Char → Char) : Decidable (KeepsDigits f) := inferInstanceAs (Decidable (∀ d < 16, _))

theorem keepsDigits_id : KeepsDigits id := by decide

theorem keepsDigits_toUpper : KeepsDigits Char.toUpper := by decide

variable {f : Char → Char}

theorem foldlM_toDigits (hf : KeepsDigits f) (n : Nat) :
    ((Nat.toDigits 16 n).map f).foldlM pushDigit? 0 = some n := by
  induction n using Nat.strongRecOn with
  | ind n ih =>
    rw [Nat.toDigits_eq_if (by decide)]
    split
    · next h => simp [pushDigit?, hf n h]
    · next h =>
      have hdigit : hexDigit? (f (Nat.digitChar (n % 16))) = some (n % 16) :=
        hf _ (Nat.mod_lt n (by decide))
      rw [List.map_append, List.foldlM_append, ih (n / 16) (by omega)]
      simp [pushDigit?, hdigit, Nat.div_add_mod]

theorem foldlM_zeros (hf : KeepsDigits f) (k : Nat) :
    ((List.replicate k '0').map f).foldlM pushDigit? 0 = some 0 := by
  have hzero : hexDigit? (f '0') = some 0 := hf 0 (by decide)
  induction k with
  | zero => rfl
  | succ k ih => simpa [List.replicate_succ, pushDigit?, hzero] using ih

theorem length_hexDigits {count n : Nat} (hcount : 0 < count) (h : n < Nat.pow 16 count) :
    (hexDigits count n).length = count := by
  have hlength := (Nat.length_toDigits_le_iff (by decide) hcount).mpr h
  rw [hexDigits, List.length_append, List.length_replicate]
  omega

theorem hexNumber_hexDigits (hf : KeepsDigits f) {count n : Nat} (hcount : 0 < count)
    (h : n < Nat.pow 16 count) (rest : List Char) :
    hexNumber count ((hexDigits count n).map f ++ rest) = some (n, rest) := by
  have hlength : ((hexDigits count n).map f).length = count := by
    rw [List.length_map, length_hexDigits hcount h]
  have hvalue : ((hexDigits count n).map f).foldlM pushDigit? 0 = some n := by
    rw [hexDigits, List.map_append, List.foldlM_append, foldlM_zeros hf]
    exact foldlM_toDigits hf n
  have htake : ((hexDigits count n).map f ++ rest).take count = (hexDigits count n).map f :=
    List.take_left' hlength
  have hdrop : ((hexDigits count n).map f ++ rest).drop count = rest := List.drop_left' hlength
  unfold hexNumber
  simp only [htake, hdrop, hlength, if_true]
  exact congrArg (Option.map (·, rest)) hvalue

end StackEscape.Text
