import StorageLoad.Random.Source

/-!
The Mersenne Twister with its 624-word state.  The state is renewed as a whole when its words are
used up.
-/

namespace StorageLoad

/-- The state words and the number of them that are used up. -/
structure Twister where
  state : Array UInt32
  used : Nat

namespace Twister

def size : Nat := 624

/-- The word at an index; indices stay below `size`. -/
@[inline] def word (state : Array UInt32) (i : Nat) : UInt32 :=
  state.getD i 0

/-- The state that a single word spreads to. -/
def spread (seed : UInt32) : Array UInt32 :=
  (List.range (size - 1)).foldl (fun state i =>
    let last := word state i
    state.push ((1812433253 : UInt32) * (last ^^^ (last >>> 30)) + UInt32.ofNat (i + 1))) #[seed]

/-- Steps through the state cyclically: the last word is copied to the front when the end is
reached. -/
def advance (state : Array UInt32) (i : Nat) : Array UInt32 × Nat :=
  if i + 1 < size then (state, i + 1) else (state.set! 0 (word state (size - 1)), 1)

/-- Mixes the words of a key into a state, and then the indices. -/
def mixKey (key : Array UInt32) (state : Array UInt32) : Array UInt32 :=
  let rounds := max size key.size
  let (state, i, _) := (List.range rounds).foldl (fun (state, i, j) _ =>
    let last := word state (i - 1)
    let mixed := (word state i ^^^ ((last ^^^ (last >>> 30)) * 1664525)) + key.getD j 0 +
      UInt32.ofNat j
    let (state, i) := advance (state.set! i mixed) i
    (state, i, if j + 1 < key.size then j + 1 else 0)) (state, 1, 0)
  let (state, _) := (List.range (size - 1)).foldl (fun (state, i) _ =>
    let last := word state (i - 1)
    let mixed := (word state i ^^^ ((last ^^^ (last >>> 30)) * 1566083941)) - UInt32.ofNat i
    advance (state.set! i mixed) i) (state, i)
  state.set! 0 0x80000000

/-- The 32-bit words of a number, least significant first; at least one. -/
def keyWords (n : Nat) : List UInt32 :=
  if n < 2 ^ 32 then [UInt32.ofNat n] else UInt32.ofNat n :: keyWords (n / 2 ^ 32)
termination_by n

/-- The generator for a seed.  The sign of the seed plays no part. -/
def ofSeed (seed : Int) : Twister :=
  { state := mixKey (keyWords seed.natAbs).toArray (spread 19650218), used := size }

/-- The state that follows a used up one. -/
def renew (state : Array UInt32) : Array UInt32 :=
  (List.range size).foldl (fun state i =>
    let joined := (word state i &&& 0x80000000) ||| (word state ((i + 1) % size) &&& 0x7fffffff)
    let twisted := (joined >>> 1) ^^^ (if joined &&& 1 = 0 then 0 else 0x9908b0df)
    state.set! i (word state ((i + 397) % size) ^^^ twisted)) state

/-- Evens out the bits of a state word. -/
@[inline] def temper (w : UInt32) : UInt32 :=
  let w := w ^^^ (w >>> 11)
  let w := w ^^^ ((w <<< 7) &&& 0x9d2c5680)
  let w := w ^^^ ((w <<< 15) &&& 0xefc60000)
  w ^^^ (w >>> 18)

instance : RandomSource Twister where
  next t :=
    let t := if t.used < size then t else { state := renew t.state, used := 0 }
    (temper (word t.state t.used), { t with used := t.used + 1 })

end Twister

end StorageLoad
