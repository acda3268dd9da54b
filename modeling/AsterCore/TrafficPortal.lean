import AsterCore.GoText
import AsterCore.TrafficLifecycle
import AsterCore.TrafficRestart

namespace AsterCore

open List

namespace PortalCodec

variable (codec : PortalCodec)

end PortalCodec

namespace Manager

end Manager

end AsterCore
