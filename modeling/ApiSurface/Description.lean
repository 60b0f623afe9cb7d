import ApiSurface.Json.Api
import ApiSurface.Settings.Basic
import ApiSurface.Xml.Api

/-!
# Describing an API

The text that describes an API, in the form that is asked for. Every form ends with a line break.
-/

namespace ApiSurface.Api

/-- The description of an API in the given form. -/
def describe (api : Api) : OutputMode → String
  | .full => Xml.full api
  | .parametersOnly => Xml.parametersOnly api
  | .json => api.toJson.render

end ApiSurface.Api
