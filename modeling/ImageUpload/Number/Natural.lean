/-!
Powers and sums of natural numbers are those of the language, also beside a library that has
instances of its own for them.
-/

namespace ImageUpload

attribute [instance (20000), default_instance (20000)] instPowNat
attribute [instance (20000)] Zero.ofOfNat0

end ImageUpload
