/-!
Powers of whole numbers are those of the core library, also where a library of algebra brings its
own.
-/

namespace StorageLoad

@[default_instance 20000]
instance (priority := 20000) wholePower {α : Type} [NatPow α] : Pow α Nat :=
  instPowNat

end StorageLoad
