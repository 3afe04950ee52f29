import MeshcoreBbs.Text

/-!
# Configuration (`config.py`)

The sections and fields that the modelled code reads, with the defaults of the source.
-/

namespace Bbs

structure BBSConfig where
  name : Text := lit "MeshCore BBS"
  adminPubkeys : List Text := []
  deriving DecidableEq

structure LimitsConfig where
  inboundPerHour : Int := 20
  inboundPerMinute : Int := 5
  postPerHour : Int := 5
  postPerDay : Int := 20
  mailSendPerDay : Int := 10
  outboundMinIntervalMs : Int := 1000
  outboundPerRecipientMinIntervalMs : Int := 3000
  outboundQueueMaxDepth : Int := 100

structure WeatherConfig where
  locationName : Text := lit "Sydney"
  cacheObservationSeconds : Int := 600
  deriving DecidableEq

structure MailConfig where
  onlineThresholdSeconds : Int := 900
  notifyMinIntervalSeconds : Int := 600
  readRetentionDays : Int := 90
  deriving DecidableEq

structure Config where
  bbs : BBSConfig := {}
  limits : LimitsConfig := {}
  weather : WeatherConfig := {}
  mail : MailConfig := {}

end Bbs
