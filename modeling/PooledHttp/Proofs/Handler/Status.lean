import PooledHttp.Proofs.Content.Confinement
import PooledHttp.Proofs.Content.Lookup
import PooledHttp.Proofs.Handler.Account

/-! The status of a request for content. What refuses a path refuses it alike for a file, a program
and a report; from there on only the entry that the path leads to decides. A path that lacks an entry
is not found. One that fails to lead anywhere otherwise, over a file that is no directory, say, names
nothing either, but is forbidden. -/

namespace PooledHttp

namespace Content

variable {α : Type} {machine : Machine} {root path file : String}

end Content

namespace ContentError

variable {path : String} {cause : SystemError}

end ContentError

namespace Site

variable {site : Site} {request : Request} {file : String} {log : Bytes}

end Site

end PooledHttp
