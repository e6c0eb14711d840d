import Oberon.Proofs.TypedSections

/-!
# Hygiene of procedures

To compile a procedure is to open a frame of names, a scope of types and a body, to declare in them
whatever its section declares, procedures of procedures included, and to close them again. Inside,
any name may be declared anew, that of the procedure as well. Outside, only the name of the
procedure has another meaning afterwards.
-/

namespace Oberon

open Code

end Oberon
