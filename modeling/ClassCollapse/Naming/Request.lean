import ClassCollapse.Naming.PercentEncoding
import ClassCollapse.Naming.Prompt
import ClassCollapse.Text.Search

/-!
# Requests to a naming service

The service is asked with a URL that holds the prompt.
-/

namespace ClassCollapse.Naming

/-- What stands between an endpoint and the prompt. An endpoint that ends with `=` or `/` takes the
prompt right after it, any other takes it as a parameter of its query. -/
def joint (endpoint : String) : String :=
  if Text.endsWith endpoint "=" || Text.endsWith endpoint "/" then ""
  else if endpoint.toList.contains '?' then "&prompt="
  else "?prompt="

def requestUrl (endpoint prompt : String) : String :=
  endpoint ++ joint endpoint ++ percentEncode prompt

end ClassCollapse.Naming
