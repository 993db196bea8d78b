import SpringOs.Lib.Bytes

/-!
A ring of `size` places in a linear memory: place `i` from `r` on is `(r + i) % size`.

* `ringPut`: a copy that may run over the end, in two pieces;
* **`ringPut_slot`**: what stands in a place behind the data after such a copy.
-/

namespace SpringOs.Lib.RingBuffer
open Bytes

variable {α : Type}

theorem mod_once {x n : Nat} (h : x < 2 * n) : x % n = if x < n then x else x - n := by
  split
  · rename_i hlt
    exact Nat.mod_eq_of_lt hlt
  · rw [Nat.mod_eq_sub_mod (by omega), Nat.mod_eq_of_lt (by omega)]

theorem slot_succ (r i n : Nat) : ((r + i) % n + 1) % n = (r + (i + 1)) % n := by
  rw [Nat.mod_add_mod, Nat.add_assoc]

/-- `len` entries from place `w` on, where the second piece starts at the front. -/
def ringPut (data : Nat → α) (size w : Nat) (src : Nat → α) (len : Nat) : Nat → α :=
  if len < size - w then put data w src len
  else put (put data w src (size - w)) 0 (fun i => src (size - w + i)) (len - (size - w))

/-- Behind `c` places that start at `r`, the copy fills the next `len` and no other. -/
theorem ringPut_slot (data src : Nat → α) {size r c len i : Nat} (hr : r < size)
    (hfit : c + len ≤ size) (hi : i < c + len) (hlen : 0 < len) :
    ringPut data size ((r + c) % size) src len ((r + i) % size) =
      if i < c then data ((r + i) % size) else src (i - c) := by
  unfold ringPut put
  rw [mod_once (show r + c < 2 * size by omega), mod_once (show r + i < 2 * size by omega)]
  split <;> split <;> split <;> split <;> grind

end SpringOs.Lib.RingBuffer
